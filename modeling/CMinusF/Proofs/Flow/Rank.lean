import CMinusF.Proofs.Flow.Postorder

/-! Postorder numbers, and the tree that the dominator analysis refines: every link leads to a block
of higher number, from which the block below can be reached without passing any higher one. -/
namespace CMinusF
open CMinusF.Module List

namespace Dominance
variable {b e a c : BlockId} {m : Module} {order : List BlockId} {num : BlockMap Nat}
  {t : BlockMap (Option BlockId)}

/-! Numbering a list. -/

theorem get_foldl_set_of_notMem (l : List BlockId) (k : Nat) (t : BlockMap Nat) (hb : b ∉ l) :
    ((l.zipIdx k).foldl (fun t x => t.set x.1 x.2) t).get b = t.get b := by
  induction l generalizing k t with
  | nil => rfl
  | cons c l ih =>
    simp only [mem_cons,not_or] at hb
    simp only [zipIdx_cons,foldl_cons]
    rw [ih (k+1) _ hb.2,BlockMap.get_set,if_neg (Ne.symm hb.1)]

theorem pairwise_foldl_set (l : List BlockId) (k : Nat) (t : BlockMap Nat) (hl : l.Nodup) :
    let u := (l.zipIdx k).foldl (fun t x => t.set x.1 x.2) t
    (∀ b ∈ l, k ≤ u.get b ∧ u.get b < k + l.length) ∧ l.Pairwise fun a b => u.get a < u.get b := by
  induction l generalizing k t with
  | nil => simp
  | cons c l ih =>
    obtain ⟨hc,hl⟩ := nodup_cons.mp hl
    obtain ⟨hb,hp⟩ := ih (k+1) (t.set c k) hl
    have hk : ((l.zipIdx (k+1)).foldl (fun t x => t.set x.1 x.2) (t.set c k)).get c = k := by
      rw [get_foldl_set_of_notMem l (k+1) _ hc,BlockMap.get_set,if_pos rfl]
    simp only [zipIdx_cons,foldl_cons,length_cons,forall_mem_cons,pairwise_cons]
    grind

/-- An order of the blocks that can be reached, and numbers that fall along it. -/
structure Ranked (m : Module) (e : BlockId) (order : List BlockId) (num : BlockMap Nat) : Prop
    extends m.IsOrder e order where
  falling : order.Pairwise fun a b => num.get b < num.get a
  bound : ∀ b ∈ order, num.get b < order.length

theorem ranked_postorderNumbers (h : m.IsOrder e order) :
    Ranked m e order (postorderNumbers order) := by
  obtain ⟨hb,hp⟩ := pairwise_foldl_set order.reverse 0 .empty (nodup_reverse.mpr h.nodup)
  refine ⟨h,?_,fun b hm => ?_⟩
  · simpa [pairwise_reverse,postorderNumbers] using hp
  · simpa [postorderNumbers] using (hb b (by simpa using hm)).2

namespace Ranked

variable (h : Ranked m e order num)
include h

theorem entry_mem : e ∈ order := mem_of_mem_head? (by simp [h.head])

theorem eq_cons : order = e :: order.tail := (cons_head?_tail h.head).symm

theorem ne_of_mem_tail : ∀ b ∈ order.tail, b ≠ e := by
  rintro b hb rfl
  have := h.nodup
  rw [h.eq_cons] at this
  exact (nodup_cons.mp this).1 hb

theorem le_entry (hb : b ∈ order) : num.get b ≤ num.get e := by
  have hf := h.falling
  rw [h.eq_cons] at hf hb
  rcases mem_cons.mp hb with rfl | hb
  · exact Nat.le_refl _
  · exact Nat.le_of_lt ((pairwise_cons.mp hf).1 b hb)

theorem injective (ha : a ∈ order) (hb : b ∈ order)
    (he : num.get a = num.get b) : a = b := by
  by_contra hne
  have hs : order.Pairwise fun a b => num.get b ≠ num.get a := h.falling.imp Nat.ne_of_lt
  have : Std.Symm fun a b : BlockId => num.get b ≠ num.get a := ⟨fun _ _ h => Ne.symm h⟩
  exact hs.forall ha hb hne he.symm

theorem exists_origin (hb : b ∈ order) (hne : b ≠ e) :
    ∃ q ∈ order, b ∈ m.succs q ∧ num.get b < num.get q := by
  obtain ⟨q,hq,hs⟩ := h.origin b hb hne
  exact ⟨q,hs.subset (by simp),hq,h.falling.forall_sublist hs⟩

end Ranked

/-! Climbing. -/

/-- One gets from `b` to `a` by taking immediate dominators. -/
inductive Above (t : BlockMap (Option BlockId)) (a : BlockId) : BlockId → Prop where
  | refl : Above t a a
  | up {b c : BlockId} : t.get b = some c → Above t a c → Above t a b

namespace Above

theorem trans (h : Above t a b) (h' : Above t b c) : Above t a c := by
  induction h' with
  | refl => exact h
  | up hc _ ih => exact .up hc ih

theorem of_ne (h : Above t a b) (hne : a ≠ b) : ∃ c, t.get b = some c ∧ Above t a c := by
  cases h with
  | refl => exact absurd rfl hne
  | up hc h => exact ⟨_,hc,h⟩

theorem total (h : Above t a c) (h' : Above t b c) : Above t a b ∨ Above t b a := by
  induction h with
  | refl => exact .inr h'
  | @up c d hc h ih =>
    cases h' with
    | refl => exact .inl (.up hc h)
    | up hc' h' =>
      grind

end Above

/-- The second block can be reached from the first without passing a block of higher number. -/
def Forward (m : Module) (num : BlockMap Nat) (a b : BlockId) : Prop :=
  ∃ bs, Trail m a b bs ∧ ∀ x ∈ bs, num.get x ≤ num.get a

theorem Forward.trans (h : Forward m num a b)
    (h' : Forward m num b c) : Forward m num a c := by
  obtain ⟨bs,hb,hbs⟩ := h
  obtain ⟨cs,hc,hcs⟩ := h'
  obtain ⟨ds,hd,hds⟩ := hb.append hc
  refine ⟨ds,hd,fun x hx => ?_⟩
  rcases hds x hx with hx | hx
  · exact hbs x hx
  · exact Nat.le_trans (hcs x hx) (hbs b hb.mem_end)

/-- The links of a tree under construction: blocks without a link have not been looked at. -/
structure Tree (m : Module) (e : BlockId) (order : List BlockId) (num : BlockMap Nat)
    (t : BlockMap (Option BlockId)) : Prop where
  entry : t.get e = some e
  mem : ∀ b c, t.get b = some c → b ∈ order ∧ (t.get c).isSome
  rank : ∀ b c, t.get b = some c → b ≠ e → num.get b < num.get c
  link : ∀ b c, t.get b = some c → Forward m num c b

namespace Tree

variable (h : Tree m e order num t)
include h

theorem mem_of_isSome (hb : (t.get b).isSome) : b ∈ order := by
  obtain ⟨c,hc⟩ := Option.isSome_iff_exists.mp hb
  exact (h.mem b c hc).1

theorem isSome_above (hb : (t.get b).isSome) (ha : Above t a b) :
    (t.get a).isSome := by
  induction ha with
  | refl => exact hb
  | up hc _ ih => exact ih (h.mem _ _ hc).2

theorem rank_le (ha : Above t a b) : num.get b ≤ num.get a := by
  induction ha with
  | refl => exact Nat.le_refl _
  | @up b c hc _ ih =>
    by_cases hb : b = e
    · subst hb
      rw [h.entry,Option.some.injEq] at hc
      subst hc
      exact ih
    · exact Nat.le_trans (Nat.le_of_lt (h.rank b c hc hb)) ih

theorem above_entry (ha : Above t a e) : a = e := by
  have key : ∀ b, Above t a b → b = e → a = e := by
    intro b hb
    induction hb with
    | refl => exact id
    | up hc _ ih =>
      rintro rfl
      rw [h.entry,Option.some.injEq] at hc
      exact ih hc.symm
  exact key e ha rfl

theorem rank_lt (ha : Above t a b) (hne : a ≠ b) : num.get b < num.get a := by
  obtain ⟨c,hc,ha⟩ := ha.of_ne hne
  by_cases hb : b = e
  · subst hb
    rw [h.entry,Option.some.injEq] at hc
    subst hc
    exact absurd (h.above_entry ha) hne
  · exact Nat.lt_of_lt_of_le (h.rank b c hc hb) (h.rank_le ha)

theorem antisymm (ha : Above t a b) (hb : Above t b a) : a = b := by
  by_contra hne
  exact absurd (h.rank_lt ha hne) (Nat.not_lt.mpr (h.rank_le hb))

theorem forward (ha : Above t a b) : Forward m num a b := by
  induction ha with
  | refl => exact ⟨_,.start,by simp⟩
  | up hc _ ih => exact ih.trans (h.link _ _ hc)

end Tree

/-! The nearest block above two. -/

/-- `r` is above both blocks, and below all others that are. -/
structure IsMeet (t : BlockMap (Option BlockId)) (b c r : BlockId) : Prop where
  left : Above t r b
  right : Above t r c
  least : ∀ z, Above t z b → Above t z c → Above t z r

/-- The climb of two blocks comes to an end: the lower one takes its link until they are the same.
-/
inductive Climbs (num : BlockMap Nat) (t : BlockMap (Option BlockId)) :
    BlockId → BlockId → BlockId → Prop where
  | same (b : BlockId) : Climbs num t b b b
  | left {b b' c r : BlockId} : b ≠ c → num.get b < num.get c → t.get b = some b' →
      Climbs num t b' c r → Climbs num t b c r
  | right {b c c' r : BlockId} : b ≠ c → ¬num.get b < num.get c → t.get c = some c' →
      Climbs num t b c' r → Climbs num t b c r

theorem climbs_meet (hr : Ranked m e order num) (ht : Tree m e order num t) (k : Nat)
    (b c : BlockId) (hb : (t.get b).isSome) (hc : (t.get c).isSome)
    (hk : (order.length - num.get b) + (order.length - num.get c) ≤ k) :
    Climbs num t b c (meet num t k b c) ∧ IsMeet t b c (meet num t k b c) := by
  -- climbing the lower block keeps the blocks above both and shortens the way to the entry
  have climb : ∀ x y z : BlockId, (t.get x).isSome → (t.get y).isSome → num.get x < num.get y →
      ∃ x', t.get x = some x' ∧ num.get x < num.get x' ∧ (t.get x').isSome ∧
        (Above t z x → Above t z y → Above t z x') := by
    intro x y z hx hy hlt
    obtain ⟨x',hx'⟩ := Option.isSome_iff_exists.mp hx
    have hne : x ≠ e := by
      rintro rfl
      have := hr.le_entry (ht.mem_of_isSome hy)
      omega
    refine ⟨x',hx',ht.rank x x' hx' hne,(ht.mem x x' hx').2,fun hzx hzy => ?_⟩
    have hzne : z ≠ x := by
      rintro rfl
      have := ht.rank_le hzy
      omega
    obtain ⟨d,hd,hz⟩ := hzx.of_ne hzne
    exact Option.some.inj (hx'.symm.trans hd) ▸ hz
  induction k generalizing b c with
  | zero =>
    have := hr.bound b (ht.mem_of_isSome hb)
    omega
  | succ k ih =>
    rw [meet]
    split
    · rename_i heq
      subst heq
      exact ⟨.same b,.refl,.refl,fun z h _ => h⟩
    · rename_i hne
      have hbb := hr.bound b (ht.mem_of_isSome hb)
      have hbc := hr.bound c (ht.mem_of_isSome hc)
      split
      · rename_i hlt
        obtain ⟨b',hb',hlt',hs,_⟩ := climb b c b hb hc hlt
        obtain ⟨hclimb,hi⟩ := ih b' c hs hc (by omega)
        rw [hb']
        refine ⟨.left hne hlt hb' hclimb,.up hb' hi.left,hi.right,fun z hz hz' => hi.least z ?_ hz'⟩
        obtain ⟨b'',hb'',_,_,h⟩ := climb b c z hb hc hlt
        exact Option.some.inj (hb'.symm.trans hb'') ▸ h hz hz'
      · rename_i hle
        have hlt : num.get c < num.get b := by
          have hn : num.get b ≠ num.get c :=
            fun h => hne (hr.injective (ht.mem_of_isSome hb) (ht.mem_of_isSome hc) h)
          omega
        obtain ⟨c',hc',hlt',hs,_⟩ := climb c b c hc hb hlt
        obtain ⟨hclimb,hi⟩ := ih b c' hb hs (by omega)
        rw [hc']
        refine ⟨.right hne hle hc' hclimb,hi.left,.up hc' hi.right,fun z hz hz' => hi.least z hz ?_⟩
        obtain ⟨c'',hc'',_,_,h⟩ := climb c b z hc hb hlt
        exact Option.some.inj (hc'.symm.trans hc'') ▸ h hz' hz

/-- The candidate is the nearest block above all predecessors that have a link. -/
theorem candidate_spec (hr : Ranked m e order num) (ht : Tree m e order num t) (w : BlockId)
    (hq : ∃ q ∈ m.preds w, (t.get q).isSome) :
    ∃ y, candidate m num (2 * order.length) t w = some y ∧
      (∀ p ∈ m.preds w, (t.get p).isSome → Above t y p) ∧
      ∀ z, (∀ p ∈ m.preds w, (t.get p).isSome → Above t z p) → Above t z y := by
  have key : ∀ (ps : List BlockId) (acc : Option BlockId),
      (∀ c, acc = some c → (t.get c).isSome) →
      (acc.isSome ∨ ∃ q ∈ ps, (t.get q).isSome) →
      ∃ y, ps.foldl (fun acc p =>
          if (t.get p).isNone then acc else some (acc.elim p (meet num t (2 * order.length) p)))
            acc = some y ∧
        (∀ c, acc = some c → Above t y c) ∧ (∀ p ∈ ps, (t.get p).isSome → Above t y p) ∧
        ∀ z, (∀ c, acc = some c → Above t z c) → (∀ p ∈ ps, (t.get p).isSome → Above t z p) →
          Above t z y := by
    intro ps
    induction ps with
    | nil =>
      intro acc _ ha
      obtain ⟨c,rfl⟩ := Option.isSome_iff_exists.mp (by simpa using ha)
      exact ⟨c,rfl,fun d hd => Option.some.inj hd ▸ .refl,by simp,fun z hz _ => hz c rfl⟩
    | cons p ps ih =>
      intro acc hacc ha
      rw [foldl_cons]
      by_cases hp : (t.get p).isSome
      · have hn : (t.get p).isNone = false := by simpa using hp
        simp only [hn]
        cases acc with
        | none =>
          obtain ⟨y,hy,h1,h2,h3⟩ := ih (some p) (by simpa using hp) (.inl rfl)
          refine ⟨y,hy,by simp,?_,fun z _ hz => h3 z ?_ fun q hq => hz q (by simp [hq])⟩
          · simp only [forall_mem_cons]
            exact ⟨fun _ => h1 p rfl,h2⟩
          · rintro c hc
            exact Option.some.inj hc ▸ hz p (by simp) hp
        | some c =>
          have hc := hacc c rfl
          have hbp := hr.bound p (ht.mem_of_isSome hp)
          have hm := (climbs_meet hr ht (2 * order.length) p c hp hc (by omega)).2
          obtain ⟨y,hy,h1,h2,h3⟩ := ih (some (meet num t (2 * order.length) p c))
            (by simpa using ht.isSome_above hp hm.left) (.inl rfl)
          refine ⟨y,hy,?_,?_,fun z hz hz' => h3 z ?_ fun q hq => hz' q (by simp [hq])⟩
          · rintro d hd
            exact Option.some.inj hd ▸ (h1 _ rfl).trans hm.right
          · simp only [forall_mem_cons]
            exact ⟨fun _ => (h1 _ rfl).trans hm.left,h2⟩
          · rintro d hd
            exact Option.some.inj hd ▸ hm.least z (hz' p (by simp) hp) (hz c rfl)
      · have hn : (t.get p).isNone = true := by simpa using hp
        simp only [hn]
        obtain ⟨y,hy,h1,h2,h3⟩ := ih acc hacc (ha.imp_right (by simp [hp]))
        refine ⟨y,hy,h1,?_,fun z hz hz' => h3 z hz fun q hq => hz' q (by simp [hq])⟩
        simp only [forall_mem_cons]
        exact ⟨fun h => absurd h hp,h2⟩
  obtain ⟨y,hy,_,h2,h3⟩ := key (m.preds w) none (by simp) (.inr hq)
  refine ⟨y,Eq.trans (congrArg (foldl · none _) ?_) hy,h2,fun z hz => h3 z (by simp) hz⟩
  funext acc p
  cases acc <;> rfl

end Dominance
end CMinusF
