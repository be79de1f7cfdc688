import CMinusF.Proofs.Flow.Trail

/-! The depth-first search lists exactly the blocks that can be reached, each once and after some
block that branches to it. -/
namespace CMinusF.Search
open List
variable {m : Module}

/-- What a search from the blocks `roots` adds: the blocks `new`, in front of those listed before.
-/
structure Explores (m : Module) (roots : List BlockId) (s t : Search)
    (new : List BlockId) : Prop where
  order : t.order = new ++ s.order
  seen : ∀ x, t.seen.get x = true ↔ x ∈ new ∨ s.seen.get x = true
  nodup : new.Nodup
  fresh : ∀ x ∈ new, s.seen.get x = false
  closed : ∀ x ∈ new, ∀ y ∈ m.succs x, t.seen.get y = true
  found : ∀ r ∈ roots, t.seen.get r = true
  origin : ∀ x ∈ new, x ∈ roots ∨ ∃ q, x ∈ m.succs q ∧ [q,x].Sublist new
  reached : ∀ x ∈ new, ∃ r ∈ roots, m.Reaches r x

theorem Explores.none {roots : List BlockId} (h : ∀ r ∈ roots, s.seen.get r = true) :
    Explores m roots s s [] :=
  ⟨rfl,by simp,nodup_nil,by simp,by simp,h,by simp,by simp⟩

theorem Explores.append {u : Search} {rs' new' : List BlockId} (h : Explores m rs s t new)
    (h' : Explores m rs' t u new') : Explores m (rs ++ rs') s u (new' ++ new) where
  order := by rw [h'.order,h.order,append_assoc]
  seen x := by rw [h'.seen,h.seen,mem_append,or_assoc]
  nodup := by
    refine nodup_append.mpr ⟨h'.nodup,h.nodup,?_⟩
    rintro x hx _ hy rfl
    have := (h.seen x).mpr (.inl hy)
    simp [h'.fresh x hx] at this
  fresh x hx := by
    rcases mem_append.mp hx with hx | hx
    · cases hs : s.seen.get x with
      | false => rfl
      | true => rw [← h'.fresh x hx,(h.seen x).mpr (.inr hs)]
    · exact h.fresh x hx
  closed x hx y hy := by
    rcases mem_append.mp hx with hx | hx
    · exact h'.closed x hx y hy
    · exact (h'.seen y).mpr (.inr (h.closed x hx y hy))
  found r hr := by
    rcases mem_append.mp hr with hr | hr
    · exact (h'.seen r).mpr (.inr (h.found r hr))
    · exact h'.found r hr
  origin x hx := by
    rcases mem_append.mp hx with hx | hx
    · rcases h'.origin x hx with hr | ⟨q,hq,hs⟩
      · exact .inl (mem_append_right _ hr)
      · exact .inr ⟨q,hq,hs.trans (sublist_append_left _ _)⟩
    · rcases h.origin x hx with hr | ⟨q,hq,hs⟩
      · exact .inl (mem_append_left _ hr)
      · exact .inr ⟨q,hq,hs.trans (sublist_append_right _ _)⟩
  reached x hx := by
    rcases mem_append.mp hx with hx | hx
    · obtain ⟨r,hr,hx⟩ := h'.reached x hx
      exact ⟨r,mem_append_right _ hr,hx⟩
    · obtain ⟨r,hr,hx⟩ := h.reached x hx
      exact ⟨r,mem_append_left _ hr,hx⟩

def unmet (s : Search) (U : List BlockId) : Nat := U.countP fun x => !s.seen.get x

theorem Explores.unmet_le (h : Explores m rs s t new)
    (U : List BlockId) : t.unmet U ≤ s.unmet U := by
  refine countP_mono_left fun x _ hx => ?_
  cases hs : s.seen.get x with
  | false => rfl
  | true => simp [(h.seen x).mpr (.inr hs)] at hx

theorem unmet_mark {s : Search} {U : List BlockId} {b : BlockId} (hb : b ∈ U)
    (hs : s.seen.get b = false) :
    unmet ⟨s.seen.set b true,s.order⟩ U < s.unmet U := by
  have hle : ∀ V : List BlockId, unmet ⟨s.seen.set b true,s.order⟩ V ≤ s.unmet V := by
    intro V
    refine countP_mono_left fun x _ hx => ?_
    simp only [BlockMap.get_set] at hx
    split at hx <;> simp_all
  obtain ⟨V,W,rfl⟩ := append_of_mem hb
  have hV := hle V
  have hW := hle W
  simp only [unmet,countP_append,countP_cons,BlockMap.get_set,hs] at hV hW ⊢
  grind

/-- A search from the successors of a block that has just been marked explores from that block. -/
theorem Explores.around {b : BlockId} (hs : s.seen.get b = false)
    (h : Explores m (m.succs b) ⟨s.seen.set b true,s.order⟩ t new) :
    Explores m [b] s ⟨t.seen,b :: t.order⟩ (b :: new) where
  order := by simp [h.order]
  seen x := by
    rw [h.seen]
    simp only [BlockMap.get_set]
    by_cases hx : b = x <;> simp [hx,eq_comm (a := x)]
  nodup := by
    refine nodup_cons.mpr ⟨fun hb => ?_,h.nodup⟩
    have := h.fresh b hb
    simp [BlockMap.get_set] at this
  fresh x hx := by
    rcases mem_cons.mp hx with rfl | hx
    · exact hs
    · have hf := h.fresh x hx
      simp only [BlockMap.get_set] at hf
      split at hf <;> simp_all
  closed x hx y hy := by
    rcases mem_cons.mp hx with rfl | hx
    · exact h.found y hy
    · exact h.closed x hx y hy
  found r hr := by
    obtain rfl := mem_singleton.mp hr
    exact (h.seen r).mpr (.inr (by simp [BlockMap.get_set]))
  origin x hx := by
    rcases mem_cons.mp hx with rfl | hx
    · exact .inl (by simp)
    · rcases h.origin x hx with hr | ⟨q,hq,hl⟩
      · exact .inr ⟨b,hr,by simpa using hx⟩
      · exact .inr ⟨q,hq,hl.trans (sublist_cons_self _ _)⟩
  reached x hx := by
    rcases mem_cons.mp hx with rfl | hx
    · exact ⟨x,by simp,.refl m x⟩
    · obtain ⟨r,hr,hx⟩ := h.reached x hx
      exact ⟨b,by simp,((Module.Reaches.refl m b).step hr).trans hx⟩

theorem explores_foldl {n : Nat}
    (hv : ∀ s b, b ∈ U → s.unmet U < n → ∃ new, Explores m [b] s (visit m n s b) new)
    (bs : List BlockId) (s : Search) (hU : ∀ b ∈ bs, b ∈ U) (hn : s.unmet U < n) :
    ∃ new, Explores m bs s (bs.foldl (visit m n) s) new := by
  induction bs generalizing s with
  | nil => exact ⟨[],.none (by simp)⟩
  | cons b bs ih =>
    obtain ⟨new,h⟩ := hv s b (hU b (by simp)) hn
    obtain ⟨new',h'⟩ := ih (visit m n s b) (fun c hc => hU c (by simp [hc]))
      (Nat.lt_of_le_of_lt (h.unmet_le U) hn)
    exact ⟨_,h.append h'⟩

/-- With fuel for every block not met yet, the search explores all there is to explore. -/
theorem explores_visit (hc : ∀ b ∈ U, ∀ c ∈ m.succs b, c ∈ U) (n : Nat) (s : Search)
    (b : BlockId) (hb : b ∈ U) (hn : s.unmet U < n) :
    ∃ new, Explores m [b] s (visit m n s b) new := by
  induction n generalizing s b with
  | zero => omega
  | succ n ih =>
    rw [visit]
    cases hs : s.seen.get b with
    | true => exact ⟨[],.none (by simpa using hs)⟩
    | false =>
      have hlt := unmet_mark hb hs
      obtain ⟨new,h⟩ := explores_foldl ih (m.succs b) ⟨s.seen.set b true,s.order⟩
        (hc b hb) (by omega)
      exact ⟨_,h.around hs⟩

end Search

namespace Module
variable {s t : Search} {rs new U : List BlockId}
variable {m : Module} {e : BlockId}

/-- What the analyses need of the order in which they visit blocks. -/
structure IsOrder (m : Module) (e : BlockId) (order : List BlockId) : Prop where
  nodup : order.Nodup
  head : order.head? = some e
  mem_iff : ∀ b, b ∈ order ↔ m.Reaches e b
  origin : ∀ b ∈ order, b ≠ e → ∃ q, b ∈ m.succs q ∧ [q,b].Sublist order

/-- The reverse postorder lists the blocks that can be reached, in an order in which each but the
first comes after one of its predecessors. -/
theorem isOrder_reversePostorder (hc : ∀ b ∈ U, ∀ c ∈ m.succs b, c ∈ U) (he : e ∈ U)
    (hn : U.length ≤ m.blockCount) : m.IsOrder e (m.reversePostorder e) := by
  have h0 : Search.unmet ⟨.empty,[]⟩ U < m.blockCount + 1 :=
    Nat.lt_succ_of_le (Nat.le_trans List.countP_le_length hn)
  obtain ⟨new,h⟩ := Search.explores_visit hc _ ⟨.empty,[]⟩ e he h0
  have ho : m.reversePostorder e = new := by simpa [reversePostorder] using h.order
  have hhead : (m.reversePostorder e).head? = some e := by
    simp [reversePostorder,Search.visit]
  have hs : ∀ x, (Search.visit m (m.blockCount + 1) ⟨.empty,[]⟩ e).seen.get x = true ↔ x ∈ new := by
    intro x
    rw [h.seen,BlockMap.get_empty]
    simp
  have hreach : ∀ b ∈ new, m.Reaches e b := by
    intro b hb
    obtain ⟨r,hr,hx⟩ := h.reached b hb
    exact List.mem_singleton.mp hr ▸ hx
  have hall : ∀ b, m.Reaches e b → b ∈ new := by
    intro b hb
    refine Reaches.induction (P := (· ∈ new)) ((hs e).mp (h.found e (by simp))) ?_ hb
    intro x y _ hx hy
    exact (hs y).mp (h.closed x hx y hy)
  rw [ho] at hhead ⊢
  refine ⟨h.nodup,hhead,fun b => ⟨hreach b,hall b⟩,fun b hb hne => ?_⟩
  rcases h.origin b hb with hr | hq
  · exact absurd (List.mem_singleton.mp hr) hne
  · exact hq

end Module
end CMinusF
