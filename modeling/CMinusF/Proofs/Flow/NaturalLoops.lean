import CMinusF.Proofs.Flow.Trail

/-! Natural loops as sets of blocks. A header dominates its loop, and two loops are disjoint or one
is inside the other: whoever walks back from a common block meets one of the two headers first, and
is then still inside the other loop. -/
namespace CMinusF.Module

/-- A block that branches back to `h`, which dominates it. -/
structure Latch (m : Module) (e h p : BlockId) : Prop where
  reached : m.Reaches e p
  edge : h ∈ m.succs p
  back : m.Dominates e h p

def Heads (m : Module) (e h : BlockId) : Prop := ∃ p, m.Latch e h p

/-- The loop of a header: what gets to one of its latches without passing through it. -/
inductive InLoop (m : Module) (e h : BlockId) : BlockId → Prop where
  | header : InLoop m e h h
  | latch {p : BlockId} : m.Latch e h p → InLoop m e h p
  | pred {b p : BlockId} : InLoop m e h b → b ≠ h → m.Reaches e p → b ∈ m.succs p → InLoop m e h p

section
variable {m : Module} {e h k b c : BlockId}

theorem Heads.reached (hh : m.Heads e h) : m.Reaches e h := by
  obtain ⟨p,hp⟩ := hh
  exact hp.reached.step hp.edge

namespace InLoop

theorem reached (hb : m.InLoop e h b) (hh : m.Reaches e h) : m.Reaches e b := by
  cases hb with
  | header => exact hh
  | latch hp => exact hp.reached
  | pred _ _ hp _ => exact hp

theorem dominates (hb : m.InLoop e h b) : m.Dominates e h b := by
  induction hb with
  | header => exact .refl m e h
  | latch hp => exact hp.back
  | pred _ hne _ hs ih => exact ih.of_succ hs (Ne.symm hne)

/-- Walking back from a block of the loop one comes to its header and has not left the loop. -/
theorem exists_trail (hb : m.InLoop e h b) (hh : m.Reaches e h) :
    ∃ cs, m.Trail h b cs ∧ ∀ x ∈ cs, m.InLoop e h x := by
  obtain ⟨bs,ht⟩ := hb.reached hh
  induction ht with
  | start =>
    obtain rfl := List.mem_singleton.mp (hb.dominates _ .start)
    exact ⟨_,.start,by simpa using .header⟩
  | @step p b bs ht hs ih =>
    by_cases hbh : b = h
    · subst hbh
      exact ⟨_,.start,by simpa using .header⟩
    · obtain ⟨cs,hcs,hin⟩ := ih (hb.pred hbh ⟨_,ht⟩ hs)
      exact ⟨_,hcs.step hs,List.forall_mem_cons.mpr ⟨hb,hin⟩⟩

/-- What dominates a block of the loop from outside dominates the header. -/
theorem dominates_header (hb : m.InLoop e h b) (hh : m.Reaches e h) (hc : m.Dominates e c b)
    (hout : ¬m.InLoop e h c) :
    m.Dominates e c h := by
  intro bs ht
  obtain ⟨cs,hcs,hin⟩ := hb.exists_trail hh
  obtain ⟨ds,hds,hsub⟩ := ht.append hcs
  exact (hsub c (hc ds hds)).resolve_right fun hc => hout (hin c hc)

theorem antisymm (h1 : m.InLoop e h k) (h2 : m.InLoop e k h) (hh : m.Reaches e h) : h = k :=
  h1.dominates.antisymm h2.dominates (h1.reached hh)

theorem trans (hk : m.InLoop e h k) (hb : m.InLoop e k b) (hh : m.Reaches e h) :
    m.InLoop e h b := by
  by_cases hne : h = k
  · exact hne ▸ hb
  have hout : ∀ {x}, m.InLoop e k x → x ≠ h := by
    rintro x hx rfl
    exact hne (hk.antisymm hx hh)
  induction hb with
  | header => exact hk
  | latch hp => exact hk.pred (Ne.symm hne) hp.reached hp.edge
  | pred hb _ hp hs ih => exact ih.pred (hout hb) hp hs

/-- Of two loops with a common block one contains the header of the other. -/
theorem nested (h1 : m.InLoop e h b) (h2 : m.InLoop e k b) (hb : m.Reaches e b) :
    m.InLoop e h k ∨ m.InLoop e k h := by
  obtain ⟨bs,ht⟩ := hb
  induction ht with
  | start =>
    obtain rfl := List.mem_singleton.mp (h1.dominates _ .start)
    exact .inr h2
  | @step p b bs ht hs ih =>
    by_cases hbh : b = h
    · subst hbh
      exact .inr h2
    · by_cases hbk : b = k
      · subst hbk
        exact .inl h1
      · exact ih (h1.pred hbh ⟨_,ht⟩ hs) (h2.pred hbk ⟨_,ht⟩ hs)

end InLoop
end

/-! Only the successor lists matter. -/
section
variable {m n : Module}

theorem latch_congr (h : ∀ b, n.succs b = m.succs b) : n.Latch = m.Latch := by
  funext e k p
  refine propext ⟨fun ⟨h1,h2,h3⟩ => ⟨?_,?_,?_⟩,fun ⟨h1,h2,h3⟩ => ⟨?_,?_,?_⟩⟩ <;>
    simp only [reaches_congr h,dominates_congr h,h] at * <;> assumption

theorem heads_congr (h : ∀ b, n.succs b = m.succs b) : n.Heads = m.Heads := by
  funext e k
  rw [Heads,latch_congr h]
  rfl

theorem inLoop_congr (h : ∀ b, n.succs b = m.succs b) : n.InLoop = m.InLoop := by
  have key : ∀ {m n : Module}, (∀ b, n.succs b = m.succs b) → ∀ {e k b}, m.InLoop e k b →
      n.InLoop e k b := by
    intro m n h e k b hb
    induction hb with
    | header => exact .header
    | latch hp => exact .latch (latch_congr h ▸ hp)
    | pred _ hne hp hs ih => exact ih.pred hne (reaches_congr h ▸ hp) (h _ ▸ hs)
  funext e k b
  exact propext ⟨key fun b => (h b).symm,key h⟩

end
end CMinusF.Module
