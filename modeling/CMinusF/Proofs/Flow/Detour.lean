import CMinusF.Proofs.Flow.NaturalLoops

/-! A block put in front of a loop. Trails of the one graph are trails of the other but for the new
block, so old blocks dominate each other as before, and the loops are the same: the new block
belongs to those around. -/
namespace CMinusF.Module
open List

/-- In `n` every edge from outside to the header `h` leads to `pre` first, and so does the way in if
`h` is the entry. -/
structure Detour (m n : Module) (e e' h pre : BlockId) : Prop where
  reached : m.Reaches e h
  fresh : ¬m.Reaches e pre
  entry : e' = if e = h then pre else e
  front : ∀ c, c ∈ n.succs pre ↔ c = h
  inside : ∀ b, m.InLoop e h b → ∀ c, c ∈ n.succs b ↔ c ∈ m.succs b
  outside : ∀ b, m.Reaches e b → ¬m.InLoop e h b → ∀ c, c ∈ n.succs b ↔
    c ≠ h ∧ c ∈ m.succs b ∨ c = pre ∧ h ∈ m.succs b

namespace Detour
variable {m n : Module} {e e' h pre a b c k p : BlockId} {bs ds : List BlockId}

variable (D : Detour m n e e' h pre)
include D

theorem ne_pre (hb : m.Reaches e b) : b ≠ pre := by
  rintro rfl
  exact D.fresh hb

theorem succs_old (hb : m.Reaches e b) (hc : c ∈ n.succs b) (hne : c ≠ pre) : c ∈ m.succs b := by
  by_cases hin : m.InLoop e h b
  · exact (D.inside b hin c).mp hc
  · exact ((D.outside b hb hin c).mp hc).elim (·.2) fun h => absurd h.1 hne

theorem succs_new (hb : m.Reaches e b) (hc : c ∈ m.succs b) :
    c ∈ n.succs b ∨ c = h ∧ ¬m.InLoop e h b ∧ pre ∈ n.succs b := by
  by_cases hin : m.InLoop e h b
  · exact .inl ((D.inside b hin c).mpr hc)
  · by_cases hch : c = h
    · subst hch
      exact .inr ⟨rfl,hin,(D.outside b hb hin pre).mpr (.inr ⟨rfl,hc⟩)⟩
    · exact .inl ((D.outside b hb hin c).mpr (.inl ⟨hch,hc⟩))

theorem succs_pre (hb : m.Reaches e b) (hc : pre ∈ n.succs b) :
    ¬m.InLoop e h b ∧ h ∈ m.succs b := by
  by_cases hin : m.InLoop e h b
  · exact absurd (hb.step ((D.inside b hin pre).mp hc)) D.fresh
  · exact ⟨hin,((D.outside b hb hin pre).mp hc).elim (fun h => absurd (hb.step h.2) D.fresh) (·.2)⟩

/-! Trails. -/

/-- Without the new block a trail is an old one; one that ends there would have gone on to the
header. -/
theorem collapse (ht : n.Trail e' b ds) :
    (b ≠ pre → ∃ bs, m.Trail e b bs ∧ bs ⊆ ds) ∧
      (b = pre → ∃ bs, m.Trail e h (h :: bs) ∧ bs ⊆ ds) := by
  induction ht with
  | start =>
    rw [D.entry]
    split
    · rename_i heq
      subst heq
      exact ⟨fun hne => absurd rfl hne,fun _ => ⟨[],.start,nil_subset _⟩⟩
    · exact ⟨fun _ => ⟨_,.start,fun _ hx => hx⟩,fun heq => absurd (heq ▸ Reaches.refl m e) D.fresh⟩
  | @step b c ds _ hc ih =>
    by_cases hb : b = pre
    · obtain ⟨bs,hbs,hsub⟩ := ih.2 hb
      subst hb
      obtain rfl := (D.front c).mp hc
      grind
    · obtain ⟨bs,hbs,hsub⟩ := ih.1 hb
      refine ⟨fun hne => ⟨_,hbs.step (D.succs_old ⟨_,hbs⟩ hc hne),cons_subset_cons _ hsub⟩,?_⟩
      rintro rfl
      exact ⟨bs,hbs.step (D.succs_pre ⟨_,hbs⟩ hc).2,fun x hx => mem_cons_of_mem _ (hsub hx)⟩

/-- An old trail can still be taken, through the new block where it came to the header from outside.
-/
theorem expand (ht : m.Trail e b bs) :
    ∃ ds, n.Trail e' b ds ∧ ∀ x ∈ ds, x ∈ bs ∨ x = pre ∧ h ∈ bs := by
  induction ht with
  | start =>
    rw [D.entry]
    split
    · rename_i heq
      exact ⟨_,Trail.step .start ((D.front e).mpr heq),by simp [heq]⟩
    · exact ⟨_,.start,by simp⟩
  | @step b c bs ht hc ih =>
    obtain ⟨ds,hds,hsub⟩ := ih
    have hsub : ∀ x ∈ ds, x ∈ c :: bs ∨ x = pre ∧ h ∈ c :: bs := fun x hx =>
      (hsub x hx).imp (mem_cons_of_mem _) fun h => ⟨h.1,mem_cons_of_mem _ h.2⟩
    rcases D.succs_new ⟨_,ht⟩ hc with hn | ⟨rfl,_,hn⟩
    · exact ⟨_,hds.step hn,forall_mem_cons.mpr ⟨.inl mem_cons_self,hsub⟩⟩
    · exact ⟨_,(hds.step hn).step ((D.front c).mpr rfl),forall_mem_cons.mpr ⟨.inl mem_cons_self,
        forall_mem_cons.mpr ⟨.inr ⟨rfl,mem_cons_self⟩,hsub⟩⟩⟩

/-- A trail that came to the header came to the new block before, and not through the header. -/
theorem arrive (ht : m.Trail e b bs) (hm : h ∈ bs) :
    ∃ ds, n.Trail e' pre ds ∧ ∀ x ∈ ds, x = pre ∨ x ≠ h ∧ x ∈ bs := by
  induction ht with
  | start =>
    obtain rfl := mem_singleton.mp hm
    have he : e' = pre := D.entry.trans (if_pos rfl)
    exact ⟨[pre],he ▸ .start,by simp⟩
  | @step b c bs ht hc ih =>
    by_cases hb : h ∈ bs
    · obtain ⟨ds,hds,hsub⟩ := ih hb
      exact ⟨ds,hds,fun x hx => (hsub x hx).imp_right fun h => ⟨h.1,mem_cons_of_mem _ h.2⟩⟩
    · obtain rfl := (mem_cons.mp hm).resolve_right hb
      have hout : ¬m.InLoop e h b := fun hin => hb (hin.dominates bs ht)
      obtain ⟨ds,hds,hsub⟩ := D.expand ht
      refine ⟨_,hds.step ((D.outside b ⟨_,ht⟩ hout pre).mpr (.inr ⟨rfl,hc⟩)),
        forall_mem_cons.mpr ⟨.inl rfl,?_⟩⟩
      intro x hx
      have hxb := (hsub x hx).resolve_right fun h => hb h.2
      exact .inr ⟨fun heq => hb (heq ▸ hxb),mem_cons_of_mem _ hxb⟩

theorem pre_mem (ht : n.Trail e' b ds) (hm : h ∈ ds) : pre ∈ ds := by
  induction ht with
  | start =>
    obtain rfl := mem_singleton.mp hm
    have := D.entry
    grind
  | @step b c ds ht hc ih =>
    refine mem_cons_of_mem _ ?_
    rcases mem_cons.mp hm with rfl | hm
    · by_cases hb : b = pre
      · exact hb ▸ ht.mem_end
      · obtain ⟨bs,hbs,hsub⟩ := (D.collapse ht).1 hb
        by_cases hin : m.InLoop e h b
        · exact ih (hsub (hin.dominates bs hbs))
        · rcases (D.outside b ⟨_,hbs⟩ hin h).mp hc with h1 | h1
          · exact absurd rfl h1.1
          · exact absurd h1.1 (D.ne_pre D.reached)
    · exact ih hm

/-! Dominance. -/

theorem reaches_iff (hb : b ≠ pre) : n.Reaches e' b ↔ m.Reaches e b := by
  constructor
  · rintro ⟨ds,hds⟩
    obtain ⟨bs,hbs,_⟩ := (D.collapse hds).1 hb
    exact ⟨bs,hbs⟩
  · rintro ⟨bs,hbs⟩
    obtain ⟨ds,hds,_⟩ := D.expand hbs
    exact ⟨ds,hds⟩

theorem reaches_pre : n.Reaches e' pre := by
  obtain ⟨bs,hbs⟩ := D.reached
  obtain ⟨ds,hds,_⟩ := D.arrive hbs hbs.mem_end
  exact ⟨ds,hds⟩

theorem reaches_cases (hb : n.Reaches e' b) : b = pre ∨ m.Reaches e b := by
  by_cases hp : b = pre
  · exact .inl hp
  · exact .inr ((D.reaches_iff hp).mp hb)

theorem dominates_iff (ha : a ≠ pre) (hb : b ≠ pre) : n.Dominates e' a b ↔ m.Dominates e a b := by
  constructor
  · intro hd bs hbs
    obtain ⟨ds,hds,hsub⟩ := D.expand hbs
    exact (hsub a (hd ds hds)).resolve_right fun h => ha h.1
  · intro hd ds hds
    obtain ⟨bs,hbs,hsub⟩ := (D.collapse hds).1 hb
    exact hsub (hd bs hbs)

theorem dominates_pre_iff (ha : a ≠ pre) :
    n.Dominates e' a pre ↔ a ≠ h ∧ m.Dominates e a h := by
  constructor
  · intro hd
    have key : ∀ bs, m.Trail e h bs → a ≠ h ∧ a ∈ bs := by
      intro bs hbs
      obtain ⟨ds,hds,hsub⟩ := D.arrive hbs hbs.mem_end
      exact (hsub a (hd ds hds)).resolve_left ha
    obtain ⟨bs,hbs⟩ := D.reached
    exact ⟨(key bs hbs).1,fun bs hbs => (key bs hbs).2⟩
  · rintro ⟨hah,hd⟩ ds hds
    obtain ⟨bs,hbs,hsub⟩ := (D.collapse hds).2 rfl
    exact hsub ((mem_cons.mp (hd _ hbs)).resolve_left hah)

theorem pre_dominates_iff (hb : b ≠ pre) : n.Dominates e' pre b ↔ m.Dominates e h b := by
  constructor
  · intro hd bs hbs
    obtain ⟨ds,hds,hsub⟩ := D.expand hbs
    rcases hsub pre (hd ds hds) with h1 | h1
    · obtain ⟨as,has,_⟩ := hbs.cut h1
      exact absurd ⟨as,has⟩ D.fresh
    · exact h1.2
  · intro hd ds hds
    obtain ⟨bs,hbs,hsub⟩ := (D.collapse hds).1 hb
    exact D.pre_mem hds (hsub (hd bs hbs))

/-! Loops. -/

theorem latch_old (hp : n.Latch e' k p) : p ≠ pre ∧ k ≠ pre := by
  obtain ⟨hr,hs,hd⟩ := hp
  constructor
  · rintro rfl
    obtain rfl := (D.front k).mp hs
    exact ((D.dominates_pre_iff (D.ne_pre D.reached)).mp hd).1 rfl
  · rintro rfl
    rcases D.reaches_cases hr with rfl | hr
    · exact D.ne_pre D.reached ((D.front p).mp hs).symm
    · obtain ⟨hout,hs⟩ := D.succs_pre hr hs
      exact hout (.latch ⟨hr,hs,(D.pre_dominates_iff (D.ne_pre hr)).mp hd⟩)

theorem latch_iff : n.Latch e' k p ↔ m.Latch e k p := by
  constructor
  · intro hl
    obtain ⟨hp,hk⟩ := D.latch_old hl
    have hr := (D.reaches_iff hp).mp hl.reached
    exact ⟨hr,D.succs_old hr hl.edge hk,(D.dominates_iff hk hp).mp hl.back⟩
  · intro hl
    have hp := D.ne_pre hl.reached
    refine ⟨(D.reaches_iff hp).mpr hl.reached,?_,
      (D.dominates_iff (D.ne_pre (hl.reached.step hl.edge)) hp).mpr hl.back⟩
    rcases D.succs_new hl.reached hl.edge with h1 | ⟨rfl,h1,_⟩
    · exact h1
    · exact absurd (.latch hl) h1

theorem heads_iff : n.Heads e' k ↔ m.Heads e k := exists_congr fun _ => D.latch_iff

theorem inLoop_cases (hk : m.Reaches e k) (hb : n.InLoop e' k b) :
    (b ≠ pre → m.InLoop e k b) ∧ (b = pre → k ≠ h ∧ m.InLoop e k h) := by
  induction hb with
  | header => exact ⟨fun _ => .header,fun heq => absurd heq (D.ne_pre hk)⟩
  | latch hp => exact ⟨fun _ => .latch (D.latch_iff.mp hp),fun heq => absurd heq (D.latch_old hp).1⟩
  | @pred b p hb hne hp hs ih =>
    constructor
    · intro hpp
      have hpr := (D.reaches_iff hpp).mp hp
      by_cases hbp : b = pre
      · obtain ⟨hkh,hin⟩ := ih.2 hbp
        exact hin.pred (Ne.symm hkh) hpr (D.succs_pre hpr (hbp ▸ hs)).2
      · exact (ih.1 hbp).pred hne hpr (D.succs_old hpr hs hbp)
    · rintro rfl
      obtain rfl := (D.front b).mp hs
      exact ⟨Ne.symm hne,ih.1 (D.ne_pre D.reached)⟩

theorem inLoop_of_inLoop (hk : m.Reaches e k) (hb : m.InLoop e k b) : n.InLoop e' k b := by
  induction hb with
  | header => exact .header
  | latch hp => exact .latch (D.latch_iff.mpr hp)
  | @pred b p hb hne hp hs ih =>
    have hpn := (D.reaches_iff (D.ne_pre hp)).mpr hp
    rcases D.succs_new hp hs with h1 | ⟨rfl,_,h1⟩
    · exact ih.pred hne hpn h1
    · exact (ih.pred hne D.reaches_pre ((D.front b).mpr rfl)).pred (D.ne_pre hk).symm hpn h1

theorem inLoop_iff (hk : m.Reaches e k) (hb : b ≠ pre) : n.InLoop e' k b ↔ m.InLoop e k b :=
  ⟨fun h => (D.inLoop_cases hk h).1 hb,D.inLoop_of_inLoop hk⟩

theorem inLoop_pre_iff (hk : m.Reaches e k) : n.InLoop e' k pre ↔ k ≠ h ∧ m.InLoop e k h := by
  refine ⟨fun hb => (D.inLoop_cases hk hb).2 rfl,?_⟩
  rintro ⟨hkh,hin⟩
  exact (D.inLoop_of_inLoop hk hin).pred (Ne.symm hkh) D.reaches_pre ((D.front h).mpr rfl)

/-- The new block joins the loops around the one it stands in front of. -/
theorem inLoop_iff_or (hk : m.Reaches e k) :
    n.InLoop e' k b ↔ m.InLoop e k b ∨ b = pre ∧ k ≠ h ∧ m.InLoop e k h := by
  by_cases hb : b = pre
  · subst hb
    rw [D.inLoop_pre_iff hk,or_iff_right fun hin => D.fresh (hin.reached hk)]
    simp
  · rw [D.inLoop_iff hk hb]
    simp [hb]

end Detour
end CMinusF.Module
