import CMinusF.Flow.Loops
import CMinusF.Proofs.Flow.NaturalLoops
import CMinusF.Proofs.Flow.Numbering
import Mathlib.Algebra.Order.BigOperators.Group.List
import Mathlib.Algebra.Order.Group.Nat

/-! The loop analysis finds the natural loops of a function and how they nest. -/
namespace CMinusF
open CMinusF.Module List
variable {α : Type} {n : Nat} {m : Module} {f : FuncId} {e b : BlockId} {l : Loop}

/-! The bound on the search. -/

theorem foldl_add_eq_sum (g : α → Nat) (l : List α) (n : Nat) :
    l.foldl (fun n x => n + g x) n = n + (l.map g).sum := by
  induction l generalizing n with
  | nil => rfl
  | cons x l ih => rw [foldl_cons,ih,map_cons,sum_cons,Nat.add_assoc]

theorem edgeBound_eq (m : Module) : Forest.edgeBound m =
    1 + (m.funcTable.rows.toList.map fun f =>
      (f.blocks.rows.toList.map fun b => b.preds.length + 1).sum).sum := by
  have hrow : (fun n (f : Func) => f.blocks.rows.foldl (fun n b => n + b.preds.length + 1) n) =
      fun n f => n + (f.blocks.rows.toList.map fun b => b.preds.length + 1).sum := by
    funext n f
    rw [← Array.foldl_toList]
    exact foldl_add_eq_sum (fun b : Block => b.preds.length + 1) _ n
  rw [Forest.edgeBound,hrow,← Array.foldl_toList,foldl_add_eq_sum]

theorem sum_map_le_of_subperm (g : α → Nat) {l l' : List α} (h : l.Subperm l') :
    (l.map g).sum ≤ (l'.map g).sum := by
  obtain ⟨k,hp,hs⟩ := h
  rw [← (hp.map g).sum_eq]
  exact (hs.map g).sum_le_sum fun _ _ => Nat.zero_le _

theorem FlowGraph.sum_preds_le (h : FlowGraph m f e) :
    ((m.func f).layout.map fun b => (m.preds b).length).sum ≤ Forest.edgeBound m := by
  have hf : f < m.funcTable.rows.size := by
    refine Nat.not_le.mp fun hf => ?_
    have := h.sized e h.entry_mem
    rw [func,Table.get_of_size_le _ hf] at this
    exact absurd this (Nat.not_lt_zero _)
  have hfunc : m.func f ∈ m.funcTable.rows.toList := by
    rw [func,Table.get,Array.getD_eq_getD_getElem?,Array.getElem?_eq_getElem hf]
    exact Array.getElem_mem_toList hf
  have hrows : (m.func f).blocks.rows.toList =
      (range (m.func f).blocks.size).map (m.func f).blocks.get := by
    refine ext_getElem (by simp [Table.size]) fun n h1 h2 => ?_
    simp [Table.get,Array.getElem?_eq_getElem (Array.length_toList ▸ h1)]
  calc ((m.func f).layout.map fun b => (m.preds b).length).sum
      = (((m.func f).layout.map BlockId.number).map fun n =>
        ((m.func f).blocks.get n).preds.length).sum := by
        rw [map_map]
        congr 1
        refine map_congr_left fun b hb => ?_
        rw [Function.comp_apply,preds,block,h.owned b hb]
    _ ≤ ((range (m.func f).blocks.size).map fun n => ((m.func f).blocks.get n).preds.length).sum :=
        sum_map_le_of_subperm _ h.numbers_subperm
    _ ≤ ((m.func f).blocks.rows.toList.map fun b => b.preds.length + 1).sum := by
        rw [hrows,map_map]
        exact sum_le_sum fun n _ => Nat.le_succ _
    _ ≤ (m.funcTable.rows.toList.map fun f =>
      (f.blocks.rows.toList.map fun b => b.preds.length + 1).sum).sum :=
        single_le_sum (fun _ _ => Nat.zero_le _) _ (mem_map_of_mem hfunc)
    _ ≤ Forest.edgeBound m := edgeBound_eq m ▸ Nat.le_add_left _ _

/-! One loop. -/

/-- A search that has come to the blocks with the given numbers and has `work` to go on from. -/
structure Gathering (m : Module) (e h : BlockId) (work : List BlockId)
    (numbers : List Nat) : Prop where
  sound : ∀ n ∈ numbers, ∃ b, m.InLoop e h b ∧ b.number = n
  work_sound : ∀ b ∈ work, m.InLoop e h b
  header : h.number ∈ numbers
  latch : ∀ p, m.Latch e h p → p.number ∈ numbers ∨ p ∈ work
  closed : ∀ b, m.InLoop e h b → b ≠ h → b.number ∈ numbers → ∀ p, m.Reaches e p → b ∈ m.succs p →
    p.number ∈ numbers ∨ p ∈ work

namespace Gathering
variable {h : BlockId} {work : List BlockId} {numbers : List Nat}

theorem mem_of_inLoop (hg : Gathering m e h [] numbers) (hb : m.InLoop e h b) :
    b.number ∈ numbers := by
  induction hb with
  | header => exact hg.header
  | latch hp => exact (hg.latch _ hp).resolve_right not_mem_nil
  | pred hb hne hp hs ih => exact (hg.closed _ hb hne ih _ hp hs).resolve_right not_mem_nil

/-- What is yet to come, each block with its predecessors. -/
def pending (m : Module) (f : FuncId) (numbers : List Nat) : Nat :=
  (((m.func f).layout.filter (·.number ∉ numbers)).map fun b => (m.preds b).length).sum

theorem pending_cons (hG : FlowGraph m f e) (hb : b ∈ (m.func f).layout) (hn : b.number ∉ numbers) :
    pending m f (b.number :: numbers) + (m.preds b).length ≤ pending m f numbers := by
  have hnot : b ∉ (m.func f).layout.filter (·.number ∉ b.number :: numbers) := by simp
  have hsub : (b :: (m.func f).layout.filter (·.number ∉ b.number :: numbers)).Subperm
      ((m.func f).layout.filter (·.number ∉ numbers)) := by
    refine (nodup_cons.mpr ⟨hnot,hG.nodup.filter _⟩).subperm ?_
    intro c hc
    rcases mem_cons.mp hc with rfl | hc
    · exact mem_filter.mpr ⟨hb,by simpa using hn⟩
    · rw [mem_filter] at hc ⊢
      exact ⟨hc.1,by simp only [mem_cons,not_or,decide_eq_true_eq] at hc ⊢; exact hc.2.2⟩
  have := sum_map_le_of_subperm (fun b => (m.preds b).length) hsub
  rw [map_cons,sum_cons] at this
  rw [pending,pending]
  omega

theorem gather (hG : FlowGraph m f e) (hh : m.Reaches e h) (n : Nat)
    (hg : Gathering m e h work numbers) (hn : work.length + pending m f numbers ≤ n) :
    Gathering m e h [] (Forest.gather m (m.dominators f) n work numbers) := by
  induction n generalizing work numbers with
  | zero =>
    obtain rfl := length_eq_zero_iff.mp (by omega : work.length = 0)
    exact hg
  | succ n ih =>
    cases work with
    | nil => exact hg
    | cons b work =>
      rw [length_cons] at hn
      have hin := hg.work_sound b mem_cons_self
      have hbr := hin.reached hh
      have hbl := hG.mem_layout hbr
      have hwork : ∀ c ∈ work, m.InLoop e h c := fun c hc => hg.work_sound c (mem_cons_of_mem _ hc)
      rw [Forest.gather]
      split
      · rename_i hmem
        -- the block has been met before
        have hdrop : ∀ p : BlockId, p.number ∈ numbers ∨ p ∈ b :: work → p.number ∈ numbers ∨
            p ∈ work := by
          rintro p (hp | hp)
          · exact .inl hp
          · rcases mem_cons.mp hp with rfl | hp
            · exact .inl hmem
            · exact .inr hp
        exact ih ⟨hg.sound,hwork,hg.header,fun p hp => hdrop p (hg.latch p hp),
          fun c hc hne hcn p hp hs => hdrop p (hg.closed c hc hne hcn p hp hs)⟩ (by omega)
      · rename_i hmem
        have hbh : b ≠ h := by
          rintro rfl
          exact hmem hg.header
        have hpend := pending_cons hG hbl hmem
        have hlen := (m.preds b).length_filter_le fun p => (m.dominators f).reachable p &&
          decide (p.number ∉ b.number :: numbers)
        refine ih ⟨?_,?_,?_,?_,?_⟩ ?_
        · intro k hk
          rcases mem_cons.mp hk with rfl | hk
          · exact ⟨b,hin,rfl⟩
          · exact hg.sound k hk
        · intro p hp
          rcases mem_append.mp hp with hp | hp
          · simp only [mem_reverse,mem_filter,Bool.and_eq_true] at hp
            have hpr := hG.reachable_iff.mp hp.2.1
            exact hin.pred hbh hpr ((hG.mirrored p (hG.mem_layout hpr) b hbl).mp hp.1)
          · exact hwork p hp
        · exact mem_cons_of_mem _ hg.header
        · intro p hp
          rcases hg.latch p hp with h1 | h1
          · exact .inl (mem_cons_of_mem _ h1)
          · rcases mem_cons.mp h1 with rfl | h1
            · exact .inl mem_cons_self
            · exact .inr (mem_append_right _ h1)
        · intro c hc hne hcn p hp hs
          rcases mem_cons.mp hcn with hcb | hcn
          · -- the predecessors of the block in turn are met already or come next
            obtain rfl := hG.eq_of_number (hG.mem_layout (hc.reached hh)) hbl hcb
            by_cases hpn : p.number ∈ c.number :: numbers
            · exact .inl hpn
            · refine .inr (mem_append_left _ ?_)
              rw [mem_reverse,mem_filter,Bool.and_eq_true,decide_eq_true_eq]
              exact ⟨(hG.mirrored p (hG.mem_layout hp) c hbl).mpr hs,hG.reachable_iff.mpr hp,hpn⟩
          · rcases hg.closed c hc hne hcn p hp hs with h1 | h1
            · exact .inl (mem_cons_of_mem _ h1)
            · rcases mem_cons.mp h1 with rfl | h1
              · exact .inl mem_cons_self
              · exact .inr (mem_append_right _ h1)
        · rw [length_append,length_reverse]
          omega

end Gathering

structure Loop.Spans (m : Module) (e : BlockId) (l : Loop) : Prop where
  heads : m.Heads e l.header
  numbers : ∀ n, n ∈ l.numbers ↔ ∃ b, m.InLoop e l.header b ∧ b.number = n
  blocks : ∀ b, b ∈ l.blocks ↔ m.InLoop e l.header b

theorem Loop.Spans.contains_iff (h : l.Spans m e)
    (hG : FlowGraph m f e) (hb : b ∈ (m.func f).layout) :
    l.contains b = true ↔ m.InLoop e l.header b := by
  rw [Loop.contains,decide_eq_true_eq,h.numbers]
  constructor
  · rintro ⟨c,hc,hn⟩
    exact hG.eq_of_number (hG.mem_layout (hc.reached h.heads.reached)) hb hn ▸ hc
  · exact fun hc => ⟨b,hc,rfl⟩

structure Loop.Found (m : Module) (f : FuncId) (e : BlockId) (l : Loop) : Prop where
  spans : l.Spans m e
  blocks : l.blocks = (m.func f).layout.filter l.contains
  preheader : l.preheader = none

namespace FlowGraph
variable {h p : BlockId}

theorem mem_latches_iff (hG : FlowGraph m f e) (hh : m.Reaches e h) :
    p ∈ ((m.preds h).filter fun p => (m.dominators f).reachable p &&
      (m.dominators f).dominates h p) ↔ m.Latch e h p := by
  rw [mem_filter,Bool.and_eq_true,hG.reachable_iff]
  constructor
  · rintro ⟨hp,hr,hd⟩
    exact ⟨hr,(hG.mirrored p (hG.mem_layout hr) h (hG.mem_layout hh)).mp hp,
      (hG.dominates_iff hr).mp hd⟩
  · rintro ⟨hr,hs,hd⟩
    exact ⟨(hG.mirrored p (hG.mem_layout hr) h (hG.mem_layout hh)).mpr hs,hr,
      (hG.dominates_iff hr).mpr hd⟩

theorem loopAt?_eq_none (hG : FlowGraph m f e) (hh : ¬m.Heads e h) :
    Forest.loopAt? m (m.dominators f) (m.func f).layout h = none := by
  rw [Forest.loopAt?]
  split
  · rfl
  · rename_i hr
    have hr := hG.reachable_iff.mp (by simpa using hr)
    refine if_pos (isEmpty_iff.mpr (eq_nil_iff_forall_not_mem.mpr fun p hp => ?_))
    exact hh ⟨p,(hG.mem_latches_iff hr).mp hp⟩

theorem exists_loopAt? (hG : FlowGraph m f e) (hh : m.Heads e h) :
    ∃ l, Forest.loopAt? m (m.dominators f) (m.func f).layout h = some l ∧ l.header = h ∧
      l.Found m f e := by
  have hr := hh.reached
  have hlatch : ∀ p, p ∈ ((m.preds h).filter fun p => (m.dominators f).reachable p &&
    (m.dominators f).dominates h p) ↔
      m.Latch e h p := fun p => hG.mem_latches_iff hr
  have hne : ((m.preds h).filter fun p => (m.dominators f).reachable p &&
      (m.dominators f).dominates h p) ≠ [] := by
    obtain ⟨p,hp⟩ := hh
    exact ne_nil_of_mem ((hlatch p).mpr hp)
  rw [Forest.loopAt?,if_neg (by simpa using hG.reachable_iff.mpr hr)]
  generalize (m.preds h).filter _ = latches at hlatch hne
  have hstart : Gathering m e h latches.reverse [h.number] := by
    refine ⟨?_,?_,mem_singleton.mpr rfl,?_,?_⟩
    · simpa using ⟨h,.header,rfl⟩
    · exact fun b hb => .latch ((hlatch b).mp (mem_reverse.mp hb))
    · exact fun p hp => .inr (mem_reverse.mpr ((hlatch p).mpr hp))
    · intro b hb hbh hn
      exact absurd (hG.eq_of_number (hG.mem_layout (hb.reached hr)) (hG.mem_layout hr)
        (mem_singleton.mp hn)) hbh
  have hpend : Gathering.pending m f [h.number] ≤ Forest.edgeBound m :=
    Nat.le_trans (((filter_sublist).map _).sum_le_sum fun _ _ => Nat.zero_le _) hG.sum_preds_le
  have hg := hstart.gather hG hr (Forest.edgeBound m + latches.length)
    (by rw [length_reverse]; omega)
  generalize hnum : Forest.gather m (m.dominators f) (Forest.edgeBound m + latches.length)
    latches.reverse [h.number] =
    numbers at hg
  have hmem : ∀ n, n ∈ numbers ↔ ∃ b, m.InLoop e h b ∧ b.number = n := by
    refine fun n => ⟨hg.sound n,?_⟩
    rintro ⟨b,hb,rfl⟩
    exact hg.mem_of_inLoop hb
  refine ⟨⟨h,(m.func f).layout.filter (·.number ∈ numbers),numbers,none,[],none⟩,?_,rfl,
    ⟨hh,hmem,fun b => ?_⟩,rfl,rfl⟩
  · rw [if_neg (by simpa using hne)]
    simp only [hnum]
  · rw [mem_filter,decide_eq_true_eq,hmem]
    constructor
    · rintro ⟨hb,c,hc,hn⟩
      exact hG.eq_of_number (hG.mem_layout (hc.reached hr)) hb hn ▸ hc
    · exact fun hb => ⟨hG.mem_layout (hb.reached hr),b,hb,rfl⟩

end FlowGraph

/-! Nesting. -/

namespace Forest

structure Encloses (m : Module) (e : BlockId) (t : Forest) (j n : Nat) : Prop where
  lt : j < t.loops.length
  ne : j ≠ n
  inLoop : m.InLoop e (t.loop j).header (t.loop n).header

open Classical in
/-- A forest of all loops, each with the innermost of those around it. -/
structure Matches (m : Module) (f : FuncId) (e : BlockId) (t : Forest) : Prop where
  spans : ∀ n, n < t.loops.length → (t.loop n).Spans m e
  headers : t.loops.map (·.header) = (m.func f).layout.filter fun b => decide (m.Heads e b)
  parent : ∀ n, n < t.loops.length → ∀ k, (t.loop n).parent = some k →
    t.Encloses m e k n ∧ ∀ j, t.Encloses m e j n → j = k ∨ t.Encloses m e j k
  outermost : ∀ n, n < t.loops.length → (t.loop n).parent = none → ∀ j, ¬t.Encloses m e j n

section
variable {ls : List Loop}

theorem bySize_perm (ls : List Loop) : (bySize ls).Perm (List.range ls.length) := by
  have h := (mergeSort_perm ls.zipIdx fun a b => a.1.blocks.length ≤ b.1.blocks.length).map (·.2)
  rw [zipIdx_map_snd,← range_eq_range'] at h
  exact h

theorem bySize_sorted (ls : List Loop) : (bySize ls).Pairwise fun i j =>
    (ls.getD i default).blocks.length ≤ (ls.getD j default).blocks.length := by
  have hs : (ls.zipIdx.mergeSort fun a b => decide (a.1.blocks.length ≤ b.1.blocks.length)).Pairwise
      fun a b => decide (a.1.blocks.length ≤ b.1.blocks.length) = true :=
    pairwise_mergeSort (by intro a b c; simp only [decide_eq_true_eq]; exact Nat.le_trans)
      (by intro a b; simp; omega) _
  rw [bySize,pairwise_map]
  refine hs.imp_of_mem fun {a b} ha hb hab => ?_
  have hget : ∀ x : Loop × Nat, x ∈ ls.zipIdx.mergeSort
    (fun a b => decide (a.1.blocks.length ≤ b.1.blocks.length)) →
      ls.getD x.2 default = x.1 := by
    intro x hx
    rw [mem_mergeSort,mem_zipIdx_iff_getElem?] at hx
    rw [getD_eq_getElem?_getD,hx,Option.getD_some]
  rw [hget a ha,hget b hb]
  exact of_decide_eq_true hab

/-- The forest of at most two loops, which one comparison puts in order. -/
def ofFew (ls : List Loop) : Forest :=
  let order := if (ls.getD 0 default).blocks.length ≤ (ls.getD 1 default).blocks.length
    then List.range ls.length else (List.range ls.length).reverse
  let parentOf (n : Nat) : Option Nat := ((parents ls order).find? (·.1 = n)).bind (·.2)
  ⟨ls.zipIdx.map fun (l,n) => { l with
      parent := parentOf n
      children := (List.range ls.length).filter fun k => parentOf k = some n },
    (List.range ls.length).filter fun n => (parentOf n).isNone⟩

theorem ofLoops_eq_ofFew (h : ls.length ≤ 2) : ofLoops ls = ofFew ls := by
  have horder : bySize ls =
      if (ls.getD 0 default).blocks.length ≤ (ls.getD 1 default).blocks.length
      then List.range ls.length else (List.range ls.length).reverse := by
    match ls, h with
    | [], _ => simp [bySize]
    | [a], _ => simp [bySize]
    | [a,b], _ =>
      by_cases hab : a.blocks.length ≤ b.blocks.length
      · simp [bySize,mergeSort,MergeSort.Internal.splitInTwo,hab,range_succ]
      · simp [bySize,mergeSort,MergeSort.Internal.splitInTwo,hab,range_succ]
  rw [ofLoops,horder]
  rfl

theorem find?_parents {os pre larger : List Nat} (hos : os = pre ++ n :: larger) (hnd : os.Nodup) :
    (parents ls os).find? (·.1 = n) =
      some (n,larger.find? fun k => (ls.getD k default).contains (ls.getD n default).header) := by
  induction pre generalizing os with
  | nil =>
    subst hos
    rw [nil_append,parents,find?_cons_of_pos (by simp)]
  | cons k pre ih =>
    subst hos
    obtain ⟨hk,hnd⟩ := nodup_cons.mp hnd
    have hkn : k ≠ n := by
      rintro rfl
      exact hk (by simp)
    rw [cons_append,parents,find?_cons_of_neg (by simpa using hkn),ih rfl hnd]

def parentOf (ls : List Loop) (n : Nat) : Option Nat :=
  ((parents ls (bySize ls)).find? (·.1 = n)).bind (·.2)

theorem ofLoops_eq (ls : List Loop) : (ofLoops ls).loops = ls.zipIdx.map fun x =>
    { x.1 with
      parent := parentOf ls x.2
      children := (List.range ls.length).filter fun k => parentOf ls k = some x.2 } := rfl

theorem length_ofLoops (ls : List Loop) : (ofLoops ls).loops.length = ls.length := by
  rw [ofLoops_eq]
  simp

theorem loop_ofLoops (hn : n < ls.length) : (ofLoops ls).loop n = { ls.getD n default with
    parent := parentOf ls n
    children := (List.range ls.length).filter fun k => parentOf ls k = some n } := by
  rw [loop,ofLoops_eq]
  simp [getElem?_eq_getElem hn]

/-- The parent is the first with the header among the loops that are not smaller. -/
theorem exists_parentOf (hn : n < ls.length) : ∃ pre larger, bySize ls = pre ++ n :: larger ∧
    parentOf ls n = larger.find? fun k => (ls.getD k default).contains
      (ls.getD n default).header := by
  obtain ⟨pre,larger,hos⟩ := append_of_mem ((bySize_perm ls).mem_iff.mpr (mem_range.mpr hn))
  refine ⟨pre,larger,hos,?_⟩
  rw [parentOf,find?_parents hos ((bySize_perm ls).nodup_iff.mpr nodup_range)]
  rfl

end

section
variable {ls : List Loop} {j k : Nat}

theorem length_lt (hG : FlowGraph m f e) {l' : Loop} (hl : l.Found m f e) (hl' : l'.Found m f e)
    (hin : m.InLoop e l'.header l.header) (hne : l'.header ≠ l.header) :
    l.blocks.length < l'.blocks.length := by
  have hr := hl'.spans.heads.reached
  have hnot : l'.header ∉ l.blocks := fun hm => hne (hin.antisymm ((hl.spans.blocks _).mp hm) hr)
  have hnd : l.blocks.Nodup := hl.blocks ▸ hG.nodup.filter _
  refine ((nodup_cons.mpr ⟨hnot,hnd⟩).subperm ?_).length_le
  intro b hb
  rw [hl'.spans.blocks]
  rcases mem_cons.mp hb with rfl | hb
  · exact .header
  · exact hin.trans ((hl.spans.blocks b).mp hb) hr

theorem getD_mem (hn : n < ls.length) : ls.getD n default ∈ ls := by
  simp_all

theorem header_injective (hnd : (ls.map (·.header)).Nodup) (hj : j < ls.length) (hn : n < ls.length)
    (h : (ls.getD j default).header = (ls.getD n default).header) : j = n := by
  simp only [getD_eq_getElem?_getD,getElem?_eq_getElem hj,getElem?_eq_getElem hn] at h
  have hj' : j < (ls.map (·.header)).length := by simpa using hj
  have hn' : n < (ls.map (·.header)).length := by simpa using hn
  have h' : (ls.map (·.header))[j] = (ls.map (·.header))[n] := by simpa using h
  exact hnd.getElem_inj_iff.mp h'

theorem encloses_ofLoops_iff (hn : n < ls.length) : (ofLoops ls).Encloses m e j n ↔
    j < ls.length ∧ j ≠ n ∧ m.InLoop e (ls.getD j default).header (ls.getD n default).header := by
  constructor
  · rintro ⟨h1,h2,h3⟩
    rw [length_ofLoops] at h1
    rw [loop_ofLoops h1,loop_ofLoops hn] at h3
    exact ⟨h1,h2,h3⟩
  · rintro ⟨h1,h2,h3⟩
    refine ⟨(length_ofLoops ls).symm ▸ h1,h2,?_⟩
    rw [loop_ofLoops h1,loop_ofLoops hn]
    exact h3

/-- Among the loops around a given one the first by size is inside all others. -/
theorem parentOf_spec (hG : FlowGraph m f e) (hf : ∀ l ∈ ls, l.Found m f e)
    (hnd : (ls.map (·.header)).Nodup) (hn : n < ls.length) :
    (∀ k, parentOf ls n = some k → (ofLoops ls).Encloses m e k n ∧
      ∀ j, (ofLoops ls).Encloses m e j n → j = k ∨ (ofLoops ls).Encloses m e j k) ∧
    (parentOf ls n = none → ∀ j, ¬(ofLoops ls).Encloses m e j n) := by
  obtain ⟨pre,larger,hos,hpar⟩ := exists_parentOf hn
  have hfound : ∀ {i}, i < ls.length → (ls.getD i default).Found m f e :=
    fun hi => hf _ (getD_mem hi)
  have hlayout : ∀ {i}, i < ls.length → (ls.getD i default).header ∈ (m.func f).layout :=
    fun hi => hG.mem_layout (hfound hi).spans.heads.reached
  have hcont : ∀ {i}, i < ls.length →
    ((ls.getD i default).contains (ls.getD n default).header = true ↔
      m.InLoop e (ls.getD i default).header (ls.getD n default).header) :=
    fun hi => (hfound hi).spans.contains_iff hG (hlayout hn)
  have hlt : ∀ {i}, i ∈ bySize ls ↔ i < ls.length := fun {i} => by
    rw [(bySize_perm ls).mem_iff,mem_range]
  have hsorted := hos ▸ bySize_sorted ls
  have hdistinct : (pre ++ n :: larger).Nodup := hos ▸ (bySize_perm ls).nodup_iff.mpr nodup_range
  -- a loop around this one is larger, so it comes later
  have hlater : ∀ j, (ofLoops ls).Encloses m e j n → j ∈ larger := by
    intro j hj
    obtain ⟨hj,hjn,hin⟩ := (encloses_ofLoops_iff hn).mp hj
    have hsize := length_lt hG (hfound hn) (hfound hj) hin fun hh =>
      hjn (header_injective hnd hj hn hh)
    have hmem := hlt.mpr hj
    rw [hos,mem_append,mem_cons] at hmem
    rcases hmem with hmem | rfl | hmem
    · have := (pairwise_append.mp hsorted).2.2 j hmem n mem_cons_self
      omega
    · exact absurd rfl hjn
    · exact hmem
  rw [hpar]
  constructor
  · intro k hk
    obtain ⟨hkc,as,bs,hab,has⟩ := find?_eq_some_iff_append.mp hk
    have hkl : k < ls.length := hlt.mp (hos ▸ by simp [hab])
    have hkn : k ≠ n := by
      rintro rfl
      rw [nodup_append] at hdistinct
      exact (nodup_cons.mp hdistinct.2.1).1 (by simp [hab])
    have hkin := (hcont hkl).mp hkc
    refine ⟨(encloses_ofLoops_iff hn).mpr ⟨hkl,hkn,hkin⟩,fun j hj => ?_⟩
    by_cases hjk : j = k
    · exact .inl hjk
    refine .inr ((encloses_ofLoops_iff hkl).mpr ?_)
    have hmem := hlater j hj
    obtain ⟨hjl,hjn,hjin⟩ := (encloses_ofLoops_iff hn).mp hj
    refine ⟨hjl,hjk,?_⟩
    rcases hjin.nested hkin (hfound hn).spans.heads.reached with h1 | h1
    · exact h1
    · -- then the later one would be the smaller one
      have hsize := length_lt hG (hfound hjl) (hfound hkl) h1 fun hh =>
        hjk (header_injective hnd hkl hjl hh).symm
      rw [hab,mem_append,mem_cons] at hmem
      rcases hmem with hmem | rfl | hmem
      · have := has j hmem
        rw [(hcont hjl).mpr hjin] at this
        cases this
      · exact absurd rfl hjk
      · rw [pairwise_append,pairwise_cons,hab,pairwise_append,pairwise_cons] at hsorted
        have := hsorted.2.1.2.2.1.1 j hmem
        omega
  · intro hnone j hj
    rw [find?_eq_none] at hnone
    obtain ⟨hjl,_,hin⟩ := (encloses_ofLoops_iff hn).mp hj
    exact hnone j (hlater j hj) ((hcont hjl).mpr hin)

end

end Forest

open Classical in
theorem FlowGraph.filterMap_loopAt? (hG : FlowGraph m f e) (bs : List BlockId) :
    ((bs.filterMap (Forest.loopAt? m (m.dominators f) (m.func f).layout)).map (·.header) =
      bs.filter fun b => decide (m.Heads e b)) ∧
    ∀ l ∈ bs.filterMap (Forest.loopAt? m (m.dominators f) (m.func f).layout), l.Found m f e := by
  induction bs with
  | nil => simp
  | cons b bs ih =>
    by_cases hb : m.Heads e b
    · obtain ⟨l,hl,hlb,hfound⟩ := hG.exists_loopAt? hb
      rw [filterMap_cons_some hl,filter_cons_of_pos (by simpa using hb),map_cons,hlb,ih.1]
      exact ⟨rfl,forall_mem_cons.mpr ⟨hfound,ih.2⟩⟩
    · rw [filterMap_cons_none (hG.loopAt?_eq_none hb),filter_cons_of_neg (by simpa using hb)]
      exact ih

theorem FlowGraph.found_findLoops (hG : FlowGraph m f e)
    (hn : n < (m.findLoops f (m.dominators f)).loops.length) :
    ((m.findLoops f (m.dominators f)).loop n).Found m f e := by
  obtain ⟨_,hfound⟩ := hG.filterMap_loopAt? (m.func f).layout
  rw [findLoops,Forest.length_ofLoops] at hn
  obtain ⟨⟨h1,h2,h3⟩,h4,h5⟩ := hfound _ (Forest.getD_mem hn)
  rw [findLoops,Forest.loop_ofLoops hn]
  exact ⟨⟨h1,h2,h3⟩,h4,h5⟩

theorem FlowGraph.matches_findLoops (hG : FlowGraph m f e) :
    (m.findLoops f (m.dominators f)).Matches m f e ∧
      ∀ n, n < (m.findLoops f (m.dominators f)).loops.length →
        ((m.findLoops f (m.dominators f)).loop n).preheader = none := by
  obtain ⟨hheaders,hfound⟩ := hG.filterMap_loopAt? (m.func f).layout
  refine ⟨⟨fun n hn => (hG.found_findLoops hn).spans,?_,?_,?_⟩,
    fun n hn => (hG.found_findLoops hn).preheader⟩ <;>
    rw [findLoops] <;> generalize (m.func f).layout.filterMap _ = ls at hheaders hfound <;>
    have hnd : (ls.map (·.header)).Nodup := hheaders ▸ hG.nodup.filter _
  · rw [← hheaders,Forest.ofLoops_eq,map_map]
    conv_rhs => rw [← zipIdx_map_fst 0 ls,map_map]
    rfl
  · intro n hn k hk
    rw [Forest.length_ofLoops] at hn
    rw [Forest.loop_ofLoops hn] at hk
    exact (Forest.parentOf_spec hG hfound hnd hn).1 k hk
  · intro n hn hk
    rw [Forest.length_ofLoops] at hn
    rw [Forest.loop_ofLoops hn] at hk
    exact (Forest.parentOf_spec hG hfound hnd hn).2 hk

namespace Forest
variable {t t' : Forest} {j k : Nat}

/-- Two forests of the same loops with the same blocks, nested in the same way. -/
structure Agrees (t t' : Forest) : Prop where
  headers : t.loops.map (·.header) = t'.loops.map (·.header)
  blocks : ∀ n, n < t.loops.length → ∀ b, b ∈ (t.loop n).blocks ↔ b ∈ (t'.loop n).blocks
  numbers : ∀ n, n < t.loops.length → ∀ k, k ∈ (t.loop n).numbers ↔ k ∈ (t'.loop n).numbers
  parent : ∀ n, n < t.loops.length → (t.loop n).parent = (t'.loop n).parent

open Classical in
noncomputable def outer (m : Module) (e : BlockId) (t : Forest) (n : Nat) : Nat :=
  ((List.range t.loops.length).filter fun i => decide (t.Encloses m e i n)).length

theorem outer_le (m : Module) (e : BlockId) (t : Forest) (n : Nat) :
    t.outer m e n ≤ t.loops.length := by
  exact Nat.le_trans (length_filter_le _ _) (Nat.le_of_eq length_range)

theorem outer_pos (h : t.Encloses m e j n) : 0 < t.outer m e n := by
  classical
  exact length_pos_of_mem (mem_filter.mpr ⟨mem_range.mpr h.lt,decide_eq_true h⟩)

namespace Matches

theorem headers_nodup (h : t.Matches m f e) (hG : FlowGraph m f e) :
    (t.loops.map (·.header)).Nodup :=
  h.headers ▸ hG.nodup.filter _

theorem eq_of_header (h : t.Matches m f e) (hG : FlowGraph m f e) (hj : j < t.loops.length)
    (hn : n < t.loops.length) (hh : (t.loop j).header = (t.loop n).header) : j = n :=
  header_injective (h.headers_nodup hG) hj hn hh

theorem trans (h : t.Matches m f e) (hG : FlowGraph m f e) (hjk : t.Encloses m e j k)
    (hkn : t.Encloses m e k n) (hn : n < t.loops.length) : t.Encloses m e j n := by
  have hr := (h.spans j hjk.lt).heads.reached
  refine ⟨hjk.lt,?_,hjk.inLoop.trans hkn.inLoop hr⟩
  rintro rfl
  exact hkn.ne (h.eq_of_header hG hkn.lt hn (hjk.inLoop.antisymm hkn.inLoop hr).symm)

open Classical in
theorem outer_parent_lt (h : t.Matches m f e) (hG : FlowGraph m f e) (hn : n < t.loops.length)
    (hp : (t.loop n).parent = some k) : t.outer m e k < t.outer m e n := by
  have hkn := (h.parent n hn k hp).1
  have hnot : k ∉ (List.range t.loops.length).filter fun i => decide (t.Encloses m e i k) := by
    intro hm
    exact (of_decide_eq_true (mem_filter.mp hm).2).ne rfl
  have hsub : k :: (List.range t.loops.length).filter (fun i => decide (t.Encloses m e i k)) ⊆
      (List.range t.loops.length).filter fun i => decide (t.Encloses m e i n) := by
    intro x hx
    rw [mem_filter,decide_eq_true_eq,mem_range]
    rcases mem_cons.mp hx with rfl | hx
    · exact ⟨hkn.lt,hkn⟩
    · have hx := of_decide_eq_true (mem_filter.mp hx).2
      exact ⟨hx.lt,h.trans hG hx hkn hn⟩
  exact ((nodup_cons.mpr ⟨hnot,nodup_range.filter _⟩).subperm hsub).length_le

theorem mem_ancestors_iff (h : t.Matches m f e) (hG : FlowGraph m f e) (hn : n < t.loops.length) :
    j ∈ t.ancestors n ↔ t.Encloses m e j n := by
  have hsound : ∀ fuel k, k < t.loops.length → ∀ i ∈ t.around fuel k, t.Encloses m e i k := by
    intro fuel
    induction fuel with
    | zero =>
      intro k _ i hi
      cases hi
    | succ fuel ih =>
      intro k hk i hi
      rw [around] at hi
      cases hp : (t.loop k).parent with
      | none =>
        rw [hp] at hi
        cases hi
      | some p =>
        rw [hp] at hi
        have hpk := (h.parent k hk p hp).1
        rcases mem_cons.mp hi with rfl | hi
        · exact hpk
        · exact h.trans hG (ih p hpk.lt i hi) hpk hk
  have hcomplete : ∀ fuel k, k < t.loops.length → t.outer m e k ≤ fuel → ∀ i, t.Encloses m e i k →
      i ∈ t.around fuel k := by
    intro fuel
    induction fuel with
    | zero =>
      intro k _ hlen i hi
      exact absurd (outer_pos hi) (Nat.not_lt.mpr hlen)
    | succ fuel ih =>
      intro k hk hlen i hi
      rw [around]
      cases hp : (t.loop k).parent with
      | none => exact absurd hi (h.outermost k hk hp i)
      | some p =>
        obtain ⟨hpk,hinner⟩ := h.parent k hk p hp
        have hlt := h.outer_parent_lt hG hk hp
        rcases hinner i hi with rfl | hip
        · exact mem_cons_self
        · exact mem_cons_of_mem _ (ih p hpk.lt (by omega) i hip)
  exact ⟨hsound _ n hn j,hcomplete _ n hn (t.outer_le m e n) j⟩

theorem agrees (h : t.Matches m f e) (h' : t'.Matches m f e) (hG : FlowGraph m f e) :
    t.Agrees t' := by
  have hheaders : t.loops.map (·.header) = t'.loops.map (·.header) :=
    h.headers.trans h'.headers.symm
  have hlen : t.loops.length = t'.loops.length := by simpa using congrArg length hheaders
  have hheader : ∀ n, n < t.loops.length → (t.loop n).header = (t'.loop n).header := by
    intro n hn
    have := congrArg (·[n]?) hheaders
    simpa [loop,getElem?_eq_getElem hn,getElem?_eq_getElem (hlen ▸ hn)] using this
  have henc : ∀ j n, n < t.loops.length → (t.Encloses m e j n ↔ t'.Encloses m e j n) := by
    intro j n hn
    constructor
    · rintro ⟨h1,h2,h3⟩
      exact ⟨hlen ▸ h1,h2,hheader j h1 ▸ hheader n hn ▸ h3⟩
    · rintro ⟨h1,h2,h3⟩
      rw [← hlen] at h1
      exact ⟨h1,h2,(hheader j h1).symm ▸ (hheader n hn).symm ▸ h3⟩
  refine ⟨hheaders,fun n hn b => ?_,fun n hn k => ?_,fun n hn => ?_⟩
  · rw [(h.spans n hn).blocks,(h'.spans n (hlen ▸ hn)).blocks,hheader n hn]
  · rw [(h.spans n hn).numbers,(h'.spans n (hlen ▸ hn)).numbers,hheader n hn]
  · cases hp : (t.loop n).parent with
    | none =>
      cases hp' : (t'.loop n).parent with
      | none => rfl
      | some k' =>
        exact absurd ((henc k' n hn).mpr (h'.parent n (hlen ▸ hn) k' hp').1)
          (h.outermost n hn hp k')
    | some k =>
      obtain ⟨hk,hinner⟩ := h.parent n hn k hp
      cases hp' : (t'.loop n).parent with
      | none => exact absurd ((henc k n hn).mp hk) (h'.outermost n (hlen ▸ hn) hp' k)
      | some k' =>
        obtain ⟨hk',hinner'⟩ := h'.parent n (hlen ▸ hn) k' hp'
        -- each would be inside the other
        rcases hinner k' ((henc k' n hn).mpr hk') with rfl | h1
        · rfl
        rcases hinner' k ((henc k n hn).mp hk) with rfl | h2
        · rfl
        exact absurd rfl (h.trans hG h1 ((henc k k' h1.lt).mpr h2) h1.lt).ne

end Matches
end Forest
end CMinusF
