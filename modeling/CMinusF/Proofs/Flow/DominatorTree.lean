import CMinusF.Proofs.Flow.Rank
import Mathlib.Algebra.GroupWithZero.Nat

/-! The refinement of the dominator tree stops, and what it stops at is the tree of immediate
dominators. A round only moves links up, which is not obvious: a link can be out of date while the
blocks between are moved. It holds because blocks are visited by falling number, so that the block a
link was computed from has been looked at again before the link is. -/
namespace CMinusF.Dominance
open CMinusF.Module List
variable {z a b : BlockId}
variable {m : Module} {e : BlockId} {order : List BlockId} {num : BlockMap Nat}

/-- The state of a round that began with `t₀`, the blocks `bs` being still to come. -/
structure Round (m : Module) (e : BlockId) (order : List BlockId) (num : BlockMap Nat)
    (t₀ t : BlockMap (Option BlockId)) (bs : List BlockId) : Prop where
  tree₀ : Tree m e order num t₀
  tree : Tree m e order num t
  /-- Blocks still to come have been left alone. -/
  same : ∀ b ∈ bs, t.get b = t₀.get b
  rising : ∀ b c₀, t₀.get b = some c₀ → ∃ c, t.get b = some c ∧ Above t c c₀
  /-- No block above all predecessors is lower than the link. -/
  lowest : ∀ w c, t.get w = some c → w ≠ e →
    ∀ z, (∀ p ∈ m.preds w, (t.get p).isSome → Above t z p) → num.get c ≤ num.get z
  dominators : ∀ b x, (t.get b).isSome → m.Dominates e x b → Above t x b
  /-- At the start of the round a link was above every predecessor of higher number. -/
  origin₀ : ∀ w c q, t₀.get w = some c → w ≠ e → q ∈ order → w ∈ m.succs q → num.get w < num.get q →
    Above t₀ c q
  /-- So it is now for the blocks that have been visited. -/
  origin : ∀ w c q, w ∉ bs → t.get w = some c → w ≠ e → q ∈ order → w ∈ m.succs q →
    num.get w < num.get q → Above t c q
  visited : ∀ b ∈ order, b ∉ bs → (t.get b).isSome

/-- Predecessors and successors of blocks that can be reached agree. -/
def Mirrored (m : Module) (e : BlockId) : Prop :=
  ∀ a b, m.Reaches e a → m.Reaches e b → (a ∈ m.preds b ↔ b ∈ m.succs a)

section
variable {t₀ t t' : BlockMap (Option BlockId)} {bs : List BlockId} {w y : BlockId}

/-- A block that was above another one before, and is high enough, is still above the blocks
between. -/
theorem Round.above_of_above (h : Round m e order num t₀ t bs) {i u : BlockId} (hz : Above t z u)
    (hi : Above t₀ i u) (hr : num.get i ≤ num.get z) : Above t z i := by
  induction hi with
  | refl => exact hz
  | @up u c0 hc0 hi ih =>
    by_cases hu : u = e
    · subst hu
      obtain rfl := h.tree.above_entry hz
      rw [h.tree₀.entry,Option.some.injEq] at hc0
      subst hc0
      exact ih .refl
    · have hlt := h.tree₀.rank u c0 hc0 hu
      have hle := h.tree₀.rank_le hi
      obtain ⟨c,hc,hcc⟩ := h.rising u c0 hc0
      have hne : z ≠ u := by rintro rfl; omega
      obtain ⟨d,hd,hzd⟩ := hz.of_ne hne
      obtain rfl := Option.some.inj (hc.symm.trans hd)
      exact ih (hzd.trans hcc)

/-- What the next block of a round is given: the nearest block above its predecessors. -/
theorem Round.exists_candidate (hr : Ranked m e order num) (hm : Mirrored m e)
    (h : Round m e order num t₀ t (w :: bs)) (hw : w ∈ order) (hne : w ≠ e)
    (hlow : ∀ q ∈ order, num.get w < num.get q → q ∉ w :: bs) :
    ∃ y, candidate m num (2 * order.length) t w = some y ∧
      (∀ p ∈ m.preds w, (t.get p).isSome → Above t y p) ∧
      (∀ z, (∀ p ∈ m.preds w, (t.get p).isSome → Above t z p) → Above t z y) ∧
      (∀ q ∈ order, w ∈ m.succs q → num.get w < num.get q → Above t y q) ∧
      num.get w < num.get y ∧ (t.get y).isSome ∧ ∀ c0, t.get w = some c0 → Above t y c0 := by
  have hpred : ∀ q ∈ order, w ∈ m.succs q → num.get w < num.get q → q ∈ m.preds w ∧
    (t.get q).isSome :=
    fun q hq hs hlt => ⟨(hm q w ((hr.mem_iff q).mp hq) ((hr.mem_iff w).mp hw)).mpr hs,
      h.visited q hq (hlow q hq hlt)⟩
  obtain ⟨q,hq,hs,hlt⟩ := hr.exists_origin hw hne
  obtain ⟨hqp,hqs⟩ := hpred q hq hs hlt
  obtain ⟨y,hy,hall,hleast⟩ := candidate_spec hr h.tree w ⟨q,hqp,hqs⟩
  have hyq := hall q hqp hqs
  refine ⟨y,hy,hall,hleast,fun p hp hps hpl => ?_,?_,h.tree.isSome_above hqs hyq,fun c0 hc0 => ?_⟩
  · obtain ⟨h1,h2⟩ := hpred p hp hps hpl
    exact hall p h1 h2
  · exact hlt.trans_le (h.tree.rank_le hyq)
  · have hle := h.lowest w c0 hc0 hne y hall
    have hc0' : t₀.get w = some c0 := by rw [← h.same w (by simp)]; exact hc0
    exact h.above_of_above hyq (h.origin₀ w c0 q hc0' hne hq hs hlt) hle

/-! One link is set: `t'` is `t` but for the link of `w`, which is now `y`. -/

theorem above_iff_of_lt (ht : Tree m e order num t) (hw : w ≠ e)
    (hset : ∀ b, t'.get b = if w = b then some y else t.get b) (hb : num.get w < num.get b) :
    Above t' a b ↔ Above t a b := by
  have hstep : ∀ b, num.get w < num.get b → t'.get b = t.get b := by
    intro b hb
    rw [hset,if_neg]
    rintro rfl
    omega
  have hnext : ∀ b c, num.get w < num.get b → t.get b = some c → num.get w < num.get c := by
    intro b c hb hc
    by_cases he : b = e
    · subst he
      rw [ht.entry,Option.some.injEq] at hc
      exact hc ▸ hb
    · exact Nat.lt_trans hb (ht.rank b c hc he)
  constructor <;> intro h
  · induction h with
    | refl => exact .refl
    | @up b c hc _ ih =>
      rw [hstep b hb] at hc
      exact .up hc (ih (hnext b c hb hc))
  · induction h with
    | refl => exact .refl
    | @up b c hc _ ih => exact .up ((hstep b hb).trans hc) (ih (hnext b c hb hc))

/-- If the link moved up, nothing new is above a block that had a link. -/
theorem above_of_above_set (ht : Tree m e order num t)
    (hset : ∀ b, t'.get b = if w = b then some y else t.get b)
    (hup : ∀ c0, t.get w = some c0 → Above t y c0) (hb : (t.get b).isSome)
    (h : Above t' z b) : Above t z b := by
  induction h with
  | refl => exact .refl
  | @up b c hc _ ih =>
    rw [hset] at hc
    split at hc
    · rename_i hwb
      subst hwb
      obtain rfl := Option.some.inj hc
      obtain ⟨c0,hc0⟩ := Option.isSome_iff_exists.mp hb
      have hy := hup c0 hc0
      exact .up hc0 ((ih (ht.isSome_above (ht.mem w c0 hc0).2 hy)).trans hy)
    · exact .up hc (ih (ht.mem b c hc).2)

/-- A dominator of a block dominates everything between, if links can be followed forward. -/
theorem dominates_of_link (ht : Tree m e order num t) {x c : BlockId} (hc : t.get b = some c)
    (hx : Above t x c) (hd : m.Dominates e x b) : m.Dominates e x c := by
  by_cases hxc : x = c
  · exact hxc ▸ .refl m e x
  · intro bs hbs
    obtain ⟨cs,hcs,hle⟩ := ht.link b c hc
    obtain ⟨ds,hds,hsub⟩ := hbs.append hcs
    rcases hsub x (hd ds hds) with h | h
    · exact h
    · have := ht.rank_lt hx hxc
      have := hle x h
      omega

/-- Setting the link of the next block to the candidate carries the round on. -/
theorem Round.set (hr : Ranked m e order num) (hm : Mirrored m e)
    (h : Round m e order num t₀ t (w :: bs)) {pre : List BlockId} (hpre : order = pre ++ w :: bs)
    (hne : w ≠ e) (hset : ∀ b, t'.get b = if w = b then candidate m num (2 * order.length) t w
      else t.get b) :
    Round m e order num t₀ t' bs := by
  have hw : w ∈ order := by simp [hpre]
  have hfall := hr.falling
  rw [hpre,pairwise_append,pairwise_cons] at hfall
  obtain ⟨_,⟨hbelow,_⟩,habove⟩ := hfall
  have hvisited : ∀ b ∈ order, b ∉ w :: bs → num.get w < num.get b := by
    intro b hb hnb
    rw [hpre,mem_append] at hb
    exact habove b (hb.resolve_right hnb) w (by simp)
  obtain ⟨y,hy,hall,hleast,horig,hwy,hys,hup⟩ :=
      h.exists_candidate hr hm hw hne fun q _ hlt hmem => by
    rcases mem_cons.mp hmem with rfl | hmem
    · omega
    · have := hbelow q hmem; omega
  rw [hy] at hset
  have hiff : ∀ {a b : BlockId}, num.get w < num.get b → (Above t' a b ↔ Above t a b) :=
    fun hb => above_iff_of_lt h.tree hne hset hb
  have hget : ∀ {b : BlockId}, w ≠ b → t'.get b = t.get b := fun hb => by rw [hset,if_neg hb]
  have hgetw : t'.get w = some y := by rw [hset,if_pos rfl]
  have hsome : ∀ {b : BlockId}, (t.get b).isSome → (t'.get b).isSome := by
    intro b hb
    by_cases hwb : w = b
    · simp [← hwb,hgetw]
    · rwa [hget hwb]
  have hshrink : ∀ {z b : BlockId}, (t.get b).isSome → Above t' z b → Above t z b :=
    fun hb hz => above_of_above_set h.tree hset hup hb hz
  have hcommon : ∀ {v z : BlockId}, (∀ p ∈ m.preds v, (t'.get p).isSome → Above t' z p) →
      ∀ p ∈ m.preds v, (t.get p).isSome → Above t z p :=
    fun hz p hp hs => hshrink hs (hz p hp (hsome hs))
  have hnot : w ∉ bs := fun hmem => Nat.lt_irrefl _ (hbelow w hmem)
  -- a dominator of the block is above all its predecessors, hence above the candidate
  have hdom : ∀ x, m.Dominates e x w → Above t' x w := by
    intro x hx
    by_cases hxw : x = w
    · exact hxw ▸ .refl
    · refine .up hgetw ((hiff hwy).mpr (hleast x fun p hp hs => h.dominators p x hs ?_))
      exact hx.of_succ
        ((hm p w ((hr.mem_iff p).mp (h.tree.mem_of_isSome hs)) ((hr.mem_iff w).mp hw)).mp hp) hxw
  refine ⟨h.tree₀,⟨?_,?_,?_,?_⟩,?_,?_,?_,?_,h.origin₀,?_,?_⟩
  · rw [hget hne,h.tree.entry]
  · intro b c hc
    by_cases hwb : w = b
    · subst hwb
      obtain rfl := Option.some.inj (hgetw.symm.trans hc)
      exact ⟨hw,hsome hys⟩
    · rw [hget hwb] at hc
      exact ⟨(h.tree.mem b c hc).1,hsome (h.tree.mem b c hc).2⟩
  · intro b c hc hb
    by_cases hwb : w = b
    · subst hwb
      exact Option.some.inj (hgetw.symm.trans hc) ▸ hwy
    · exact h.tree.rank b c (hget hwb ▸ hc) hb
  · intro b c hc
    by_cases hwb : w = b
    · subst hwb
      obtain rfl := Option.some.inj (hgetw.symm.trans hc)
      obtain ⟨q,hq,hs,hlt⟩ := hr.exists_origin hw hne
      have hqw : Forward m num q w :=
        ⟨_,Trail.start.step hs,by simp only [forall_mem_cons]; exact ⟨by omega,by simp⟩⟩
      exact (h.tree.forward (horig q hq hs hlt)).trans hqw
    · exact h.tree.link b c (hget hwb ▸ hc)
  · intro b hb
    rw [hget (fun hwb => hnot (hwb ▸ hb))]
    exact h.same b (by simp [hb])
  · intro b c0 hc0
    by_cases hwb : w = b
    · subst hwb
      have hc : t.get w = some c0 := (h.same w (by simp)).trans hc0
      exact ⟨y,hgetw,(hiff (h.tree.rank w c0 hc hne)).mpr (hup c0 hc)⟩
    · obtain ⟨c,hc,hcc⟩ := h.rising b c0 hc0
      refine ⟨c,(hget hwb).trans hc,?_⟩
      by_cases hb : b ∈ bs
      · have := (h.same b (by simp [hb])).trans hc0
        obtain rfl := Option.some.inj (this.symm.trans hc)
        exact .refl
      · have hlt : num.get w < num.get b := by
          refine hvisited b (h.tree.mem b c hc).1 ?_
          simp only [mem_cons,not_or]
          exact ⟨Ne.symm hwb,hb⟩
        refine (hiff ?_).mpr hcc
        by_cases hbe : b = e
        · subst hbe
          rw [h.tree₀.entry,Option.some.injEq] at hc0
          exact hc0 ▸ hlt
        · exact Nat.lt_trans hlt (h.tree₀.rank b c0 hc0 hbe)
  · intro v c hc hv z hz
    by_cases hwv : w = v
    · subst hwv
      obtain rfl := Option.some.inj (hgetw.symm.trans hc)
      exact h.tree.rank_le (hleast z (hcommon hz))
    · exact h.lowest v c (hget hwv ▸ hc) hv z (hcommon hz)
  · intro b x hb hx
    by_cases hwb : w = b
    · exact hwb ▸ hdom x (hwb.symm ▸ hx)
    · rw [hget hwb] at hb
      have hxb := h.dominators b x hb hx
      clear hb hwb
      induction hxb with
      | refl => exact .refl
      | @up b c hc hxc ih =>
        by_cases hwb : w = b
        · exact hwb ▸ hdom x (hwb.symm ▸ hx)
        · exact .up ((hget hwb).trans hc) (ih (dominates_of_link h.tree hc hxc hx))
  · intro v c q hv hc hve hq hs hlt
    by_cases hwv : w = v
    · subst hwv
      obtain rfl := Option.some.inj (hgetw.symm.trans hc)
      exact (hiff hlt).mpr (horig q hq hs hlt)
    · have hv' : v ∉ w :: bs := by
        simp only [mem_cons,not_or]
        exact ⟨Ne.symm hwv,hv⟩
      have hc' := hget hwv ▸ hc
      have := hvisited v (h.tree.mem v c hc').1 hv'
      exact (hiff (by omega)).mpr (h.origin v c q hv' hc' hve hq hs hlt)
  · intro b hb hnb
    by_cases hwb : w = b
    · simp [← hwb,hgetw]
    · refine hsome (h.visited b hb ?_)
      simp only [mem_cons,not_or]
      exact ⟨Ne.symm hwb,hnb⟩

theorem refine_get_of_notMem (climb : Nat) (bs : List BlockId) (t : BlockMap (Option BlockId))
    (hb : b ∉ bs) : (refine m num climb bs t).1.get b = t.get b := by
  induction bs generalizing t with
  | nil => rfl
  | cons w bs ih =>
    simp only [mem_cons,not_or] at hb
    rw [refine]
    split
    · exact ih t hb.2
    · rw [ih _ hb.2,BlockMap.get_set,if_neg (Ne.symm hb.1)]

/-- A whole round: it tells whether it changed a link, and if not every link is the candidate. -/
theorem Round.refine (hr : Ranked m e order num) (hm : Mirrored m e)
    (h : Round m e order num t₀ t bs) (pre : List BlockId) (hpre : order = pre ++ bs)
    (hne : ∀ b ∈ bs, b ≠ e) :
    Round m e order num t₀ (refine m num (2 * order.length) bs t).1 [] ∧
      ((refine m num (2 * order.length) bs t).2 = false →
        (refine m num (2 * order.length) bs t).1 = t ∧
          ∀ w ∈ bs, t.get w = candidate m num (2 * order.length) t w) ∧
      ((refine m num (2 * order.length) bs t).2 = true →
        ∃ w ∈ bs, (refine m num (2 * order.length) bs t).1.get w ≠ t.get w) := by
  induction bs generalizing t pre with
  | nil => exact ⟨h,fun _ => ⟨rfl,by simp⟩,by simp [Dominance.refine]⟩
  | cons w bs ih =>
    have hnot : w ∉ bs := by
      have := hr.nodup
      rw [hpre,nodup_append] at this
      exact (nodup_cons.mp this.2.1).1
    have hpre' : order = (pre ++ [w]) ++ bs := by simp [hpre]
    have hne' : ∀ b ∈ bs, b ≠ e := fun b hb => hne b (by simp [hb])
    rw [Dominance.refine]
    split
    · rename_i heq
      have hset : ∀ b, t.get b = if w = b then candidate m num (2 * order.length) t w
          else t.get b := by
        grind
      obtain ⟨h1,h2,h3⟩ := ih (h.set hr hm hpre (hne w (by simp)) hset) (pre ++ [w]) hpre' hne'
      refine ⟨h1,fun hf => ⟨(h2 hf).1,?_⟩,fun hf => ?_⟩
      · simp only [forall_mem_cons]
        exact ⟨heq,(h2 hf).2⟩
      · obtain ⟨v,hv,hd⟩ := h3 hf
        exact ⟨v,by simp [hv],hd⟩
    · rename_i hneq
      have hset := fun b => BlockMap.get_set t w (candidate m num (2 * order.length) t w) b
      obtain ⟨h1,_,_⟩ := ih (h.set hr hm hpre (hne w (by simp)) hset) (pre ++ [w]) hpre' hne'
      refine ⟨h1,by simp,fun _ => ⟨w,by simp,?_⟩⟩
      rw [refine_get_of_notMem _ bs _ hnot,BlockMap.get_set,if_pos rfl]
      exact Ne.symm hneq

theorem Round.restart (h : Round m e order num t₀ t []) :
    Round m e order num t t order.tail where
  tree₀ := h.tree
  tree := h.tree
  same _ _ := rfl
  rising b c hc := ⟨c,hc,.refl⟩
  lowest := h.lowest
  dominators := h.dominators
  origin₀ w c q hc := h.origin w c q (by simp) hc
  origin w c q _ hc := h.origin w c q (by simp) hc
  visited b hb _ := h.visited b hb (by simp)

theorem round_start (hr : Ranked m e order num) :
    Round m e order num (BlockMap.empty.set e (some e))
    (BlockMap.empty.set e (some e)) order.tail := by
  have hget : ∀ b c, (BlockMap.empty.set e (some e) : BlockMap (Option BlockId)).get b = some c →
      b = e ∧ c = e := by
    intro b c hc
    rw [BlockMap.get_set] at hc
    split at hc
    · simp_all
    · cases hc
  have he : (BlockMap.empty.set e (some e) : BlockMap (Option BlockId)).get e = some e := by
    rw [BlockMap.get_set,if_pos rfl]
  have htree : Tree m e order num (BlockMap.empty.set e (some e)) := by
    refine ⟨he,fun b c hc => ?_,fun b c hc hb => absurd (hget b c hc).1 hb,fun b c hc => ?_⟩
    · obtain ⟨rfl,rfl⟩ := hget b c hc
      exact ⟨hr.entry_mem,by simp [he]⟩
    · obtain ⟨rfl,rfl⟩ := hget b c hc
      exact ⟨_,.start,by simp⟩
  refine ⟨htree,htree,fun _ _ => rfl,fun b c hc => ⟨c,hc,.refl⟩,
    fun w c hc hw => absurd (hget w c hc).1 hw,
    fun b x hb hx => ?_,fun w c q hc hw => absurd (hget w c hc).1 hw,
    fun w c q _ hc hw => absurd (hget w c hc).1 hw,fun b hb hnb => ?_⟩
  · obtain ⟨c,hc⟩ := Option.isSome_iff_exists.mp hb
    obtain ⟨rfl,rfl⟩ := hget b c hc
    obtain rfl := mem_singleton.mp (hx _ .start)
    exact .refl
  · rw [hr.eq_cons] at hb
    grind

/-! Links move up only so often. -/

/-- How far the links are from the top, in all. -/
def deficit (order : List BlockId) (num : BlockMap Nat) (t : BlockMap (Option BlockId)) : Nat :=
  (order.tail.map fun b => order.length - (t.get b).elim 0 num.get).sum

theorem sum_map_lt {l : List BlockId} {f g : BlockId → Nat} (hle : ∀ b ∈ l, f b ≤ g b)
    (hlt : ∃ b ∈ l, f b < g b) : (l.map f).sum < (l.map g).sum := by
  induction l with
  | nil => obtain ⟨b,hb,_⟩ := hlt; cases hb
  | cons c l ih =>
    simp only [map_cons,sum_cons]
    have hc := hle c (by simp)
    have hl : ∀ b ∈ l, f b ≤ g b := fun b hb => hle b (by simp [hb])
    have hsum : (l.map f).sum ≤ (l.map g).sum := by
      clear ih hlt
      induction l with
      | nil => simp
      | cons d l ih => grind
    obtain ⟨b,hb,hlt⟩ := hlt
    rcases mem_cons.mp hb with rfl | hb
    · omega
    · have := ih hl ⟨b,hb,hlt⟩
      omega

theorem Round.deficit_lt (hr : Ranked m e order num) (h : Round m e order num t₀ t [])
    (hw : ∃ w ∈ order.tail, t.get w ≠ t₀.get w) : deficit order num t < deficit order num t₀ := by
  have hne := hr.ne_of_mem_tail
  have hmem : ∀ b ∈ order.tail, b ∈ order := fun b hb => mem_of_mem_tail hb
  have hcase : ∀ b ∈ order.tail, ∃ c, t.get b = some c ∧ num.get b < num.get c ∧
      num.get c < order.length := by
    intro b hb
    obtain ⟨c,hc⟩ := Option.isSome_iff_exists.mp (h.visited b (hmem b hb) (by simp))
    exact ⟨c,hc,h.tree.rank b c hc (hne b hb),
      hr.bound c (h.tree.mem_of_isSome (h.tree.mem b c hc).2)⟩
  refine sum_map_lt (fun b hb => ?_) ?_
  · obtain ⟨c,hc,_,_⟩ := hcase b hb
    rw [hc]
    cases hc0 : t₀.get b with
    | none => simp
    | some c0 =>
      obtain ⟨c',hc',hcc⟩ := h.rising b c0 hc0
      obtain rfl := Option.some.inj (hc.symm.trans hc')
      have := h.tree.rank_le hcc
      simp only [Option.elim_some]
      omega
  · obtain ⟨w,hw,hd⟩ := hw
    refine ⟨w,hw,?_⟩
    obtain ⟨c,hc,hlt,hb⟩ := hcase w hw
    rw [hc] at hd ⊢
    cases hc0 : t₀.get w with
    | none =>
      simp only [Option.elim_some,Option.elim_none]
      omega
    | some c0 =>
      obtain ⟨c',hc',hcc⟩ := h.rising w c0 hc0
      obtain rfl := Option.some.inj (hc.symm.trans hc')
      have := h.tree.rank_lt hcc (fun h => hd (by rw [h,hc0]))
      simp only [Option.elim_some]
      omega

/-- With rounds enough for every link to reach the top, the last round changes nothing. -/
theorem Round.settle (hr : Ranked m e order num) (hm : Mirrored m e) (k : Nat)
    (h : Round m e order num t t order.tail) (hk : deficit order num t < k) :
    let u := settle m num (2 * order.length) order.tail k t
    Round m e order num u u order.tail ∧ ∀ w ∈ order.tail, u.get w =
      candidate m num (2 * order.length) u w := by
  induction k generalizing t with
  | zero => omega
  | succ k ih =>
    have hne := hr.ne_of_mem_tail
    obtain ⟨h1,h2,h3⟩ := h.refine hr hm [e] hr.eq_cons hne
    rw [Dominance.settle]
    cases hb : Dominance.refine m num (2 * order.length) order.tail t with
    | mk u changed =>
      rw [hb] at h1 h2 h3
      cases changed with
      | true =>
        have hlt : deficit order num u < deficit order num t := h1.deficit_lt hr (h3 rfl)
        exact ih h1.restart (by omega)
      | false =>
        obtain ⟨rfl,hs⟩ := h2 rfl
        exact ⟨h,hs⟩

end

structure IsDominatorTree (m : Module) (e : BlockId) (order : List BlockId)
    (t : BlockMap (Option BlockId)) : Prop where
  ranked : Ranked m e order (postorderNumbers order)
  tree : Tree m e order (postorderNumbers order) t
  isSome_iff : ∀ b, (t.get b).isSome ↔ m.Reaches e b
  /-- A link is above every predecessor, -/
  pred : ∀ b c p, t.get b = some c → b ≠ e → m.Reaches e p → b ∈ m.succs p → Above t c p
  /-- and no block below it is. -/
  least : ∀ b c, t.get b = some c → b ≠ e →
    ∀ z, (∀ p, m.Reaches e p → b ∈ m.succs p → Above t z p) → Above t z c
  dominators : ∀ b x, m.Reaches e b → m.Dominates e x b → Above t x b

theorem settled_immediate (hr : Ranked m e order (postorderNumbers order)) (hm : Mirrored m e) :
    Round m e order (postorderNumbers order) (immediate m e order)
    (immediate m e order) order.tail ∧
      ∀ w ∈ order.tail, (immediate m e order).get w =
        candidate m (postorderNumbers order) (2 * order.length) (immediate m e order) w := by
  have hk : deficit order (postorderNumbers order) (BlockMap.empty.set e (some e)) <
      order.length * order.length + 2 := by
    have hsum : ∀ l : List BlockId, (l.map fun b => order.length -
        ((BlockMap.empty.set e (some e) : BlockMap (Option BlockId)).get b).elim 0
          (postorderNumbers order).get).sum ≤ l.length * order.length := by
      intro l
      induction l with
      | nil => simp
      | cons b l ih =>
        simp only [map_cons,sum_cons,length_cons,Nat.add_mul]
        omega
    have h1 := hsum order.tail
    have h2 : order.tail.length * order.length ≤ order.length * order.length :=
      Nat.mul_le_mul_right _ (by simp)
    simp only [deficit]
    omega
  exact (round_start hr).settle hr hm _ hk

theorem isDominatorTree_immediate (ho : m.IsOrder e order) (hm : Mirrored m e) :
    IsDominatorTree m e order (immediate m e order) := by
  have hr := ranked_postorderNumbers ho
  obtain ⟨h,hs⟩ := settled_immediate hr hm
  generalize immediate m e order = u at *
  have htail : ∀ b, m.Reaches e b → b ≠ e → b ∈ order.tail := by
    intro b hb hne
    have hb := (ho.mem_iff b).mpr hb
    rw [hr.eq_cons] at hb
    exact (mem_cons.mp hb).resolve_left hne
  have hsome : ∀ b, m.Reaches e b → (u.get b).isSome := by
    intro b hb
    refine Reaches.induction (P := fun b => (u.get b).isSome) (by simp [h.tree.entry]) ?_ hb
    intro p b hp hps hs'
    by_cases hbe : b = e
    · simp [hbe,h.tree.entry]
    · obtain ⟨y,hy,_⟩ := candidate_spec hr h.tree b ⟨p,(hm p b hp (hp.step hs')).mpr hs',hps⟩
      rw [hs b (htail b (hp.step hs') hbe),hy]
      rfl
  have hmeet : ∀ b c, u.get b = some c → b ≠ e →
      (∀ p, m.Reaches e p → b ∈ m.succs p → Above u c p) ∧
        ∀ z, (∀ p, m.Reaches e p → b ∈ m.succs p → Above u z p) → Above u z c := by
    intro b c hc hbe
    have hb : m.Reaches e b := (ho.mem_iff b).mp (h.tree.mem b c hc).1
    have hcand := (hs b (htail b hb hbe)).symm.trans hc
    obtain ⟨q,hq,hqs,_⟩ := hr.exists_origin ((ho.mem_iff b).mpr hb) hbe
    have hq := (ho.mem_iff q).mp hq
    obtain ⟨y,hy,h1,h2⟩ := candidate_spec hr h.tree b ⟨q,(hm q b hq hb).mpr hqs,hsome q hq⟩
    obtain rfl := Option.some.inj (hcand.symm.trans hy)
    refine ⟨fun p hp hps => h1 p ((hm p b hp hb).mpr hps) (hsome p hp),
      fun z hz => h2 z fun p hp hps => ?_⟩
    have hp' := (ho.mem_iff p).mp (h.tree.mem_of_isSome hps)
    exact hz p hp' ((hm p b hp' hb).mp hp)
  exact ⟨hr,h.tree,fun b => ⟨fun hb => (ho.mem_iff b).mp (h.tree.mem_of_isSome hb),hsome b⟩,
    fun b c p hc hbe => (hmeet b c hc hbe).1 p,fun b c hc hbe => (hmeet b c hc hbe).2,
    fun b x hb => h.dominators b x (hsome b hb)⟩

namespace IsDominatorTree
variable {t : BlockMap (Option BlockId)}

/-- What is above a block dominates it: a trail comes to the block from a predecessor, and the link
is above every one of them. -/
theorem dominates_of_above (h : IsDominatorTree m e order t) (ha : Above t a b) :
    m.Dominates e a b := by
  intro bs ht
  induction ht generalizing a with
  | start => simp [h.tree.above_entry ha]
  | @step p b bs ht hb ih =>
    by_cases hab : a = b
    · simp [hab]
    · obtain ⟨c,hc,hac⟩ := ha.of_ne hab
      by_cases hbe : b = e
      · subst hbe
        exact absurd (h.tree.above_entry ha) hab
      · exact mem_cons_of_mem _ (ih (hac.trans (h.pred b c p hc hbe ⟨bs,ht⟩ hb)))

end IsDominatorTree
end CMinusF.Dominance
