import CMinusF.Failure
import CMinusF.Proofs.Graph.Formed
import CMinusF.Proofs.Graph.Mirror

/-! What the check of a function's shape finds out. Together with what the builders see to and with
single assignment it makes the function well-formed. -/
namespace CMinusF
open List
variable {m : Module} {f : FuncId} {i : InstrId} {seen : List BlockId} {inPhis last : Bool}
  {is pre post : List InstrId} {e : BlockId}

namespace Module
variable {b : BlockId}

theorem verify_eq_ok_iff : m.verify f = .ok () ↔ m.funcDefect? f = none := by
  rw [verify]
  cases m.funcDefect? f <;> simp

theorem orElse_eq_none {α : Type} {x y : Option α} : (x <|> y) = none ↔ x = none ∧ y = none := by
  cases x <;> simp

theorem pairsDefect?_eq_none {vs : List Operand} (h : m.pairsDefect? b seen vs = none) :
    ∃ ps : List (Operand × BlockId), vs = (ps.flatMap fun x => [x.1,.block x.2]) ∧
      (ps.map (·.2)).Nodup ∧
      ∀ x ∈ ps, x.2 ∈ m.preds b ∧ x.2 ∉ seen := by
  fun_induction pairsDefect? m b seen vs with
  | case1 => exact ⟨[],rfl,nodup_nil,by simp⟩
  | case5 seen v rest p hs hp ih =>
    obtain ⟨ps,rfl,hnd,hps⟩ := ih h
    refine ⟨(v,p)::ps,rfl,?_,?_⟩
    · rw [map_cons,nodup_cons]
      refine ⟨fun hm => ?_,hnd⟩
      obtain ⟨x,hx,hxp⟩ := mem_map.mp hm
      exact (hps x hx).2 (hxp ▸ mem_cons_self ..)
    · intro x hx
      rcases mem_cons.mp hx with rfl | hx
      · exact ⟨not_not.mp hp,hs⟩
      · grind
  | _ => simp at h

/-- What passing the check says about an instruction that stands between others. -/
structure Checked (m : Module) (f : FuncId) (b : BlockId) (pre : List InstrId) (i : InstrId)
    (post : List InstrId) :
    Prop where
  parent : (m.instr i).parent = some b
  last : (m.instr i).op.isTerminator = true → post = []
  phi : (m.instr i).op = .phi → ∀ j ∈ pre, (m.instr j).op = .phi
  pairs : (m.instr i).op = .phi → ∃ ps : List (Operand × BlockId),
    m.operands i = (ps.flatMap fun x => [x.1,.block x.2]) ∧ (ps.map (·.2)).Nodup ∧
      ∀ x ∈ ps, x.2 ∈ m.preds b
  void : (m.instr i).type.isVoid = true → (m.instr i).uses = []
  operand : ∀ v ∈ m.operands i, m.operandDefect? f b i v = none

theorem instrDefect?_eq_none (h : m.instrDefect? f b inPhis last i = none) :
    ((m.instr i).op = .phi → inPhis = true) ∧ ((m.instr i).op.isTerminator = true → last = true) ∧
      ∀ pre post, (inPhis = true → ∀ j ∈ pre, (m.instr j).op = .phi) → (last = true → post = []) →
        Checked m f b pre i post := by
  simp only [instrDefect?] at h
  split at h
  · cases h
  · rename_i hparent
    split at h
    · cases h
    · rename_i hterm
      split at h
      · cases h
      · rename_i hphi
        obtain ⟨h1,h2⟩ := orElse_eq_none.mp h
        obtain ⟨h2,h3⟩ := orElse_eq_none.mp h2
        have hp : (m.instr i).op = .phi → inPhis = true := by simpa using hphi
        have ht : (m.instr i).op.isTerminator = true → last = true := by simpa using hterm
        refine ⟨hp,ht,fun pre post hpre hpost =>
          ⟨not_not.mp hparent,fun hop => hpost (ht hop),fun hop => hpre (hp hop),
          fun hop => ?_,?_,findSome?_eq_none_iff.mp h3⟩⟩
        · rw [if_pos hop,Option.map_eq_none_iff,phiDefect?] at h1
          split at h1
          · cases h1
          · obtain ⟨ps,hps,hnd,hpred⟩ := pairsDefect?_eq_none h1
            exact ⟨ps,hps,hnd,fun x hx => (hpred x hx).1⟩
        · simpa using h2

theorem instrsDefect?_eq_none
    (h : m.instrsDefect? f b inPhis is = none) (his : is = pre ++ i :: post) (before : List InstrId)
    (hb : inPhis = true → ∀ j ∈ before, (m.instr j).op = .phi) :
    Checked m f b (before ++ pre) i post := by
  induction pre generalizing is inPhis before with
  | nil =>
    subst his
    obtain ⟨_,_,hc⟩ := instrDefect?_eq_none (orElse_eq_none.mp h).1
    exact hc _ _ (by simpa using hb) (by simp)
  | cons j pre ih =>
    subst his
    obtain ⟨h1,h2⟩ := orElse_eq_none.mp h
    have := ih h2 rfl (before ++ [j]) (by
      intro hp k hk
      simp only [Bool.and_eq_true,decide_eq_true_eq] at hp
      rcases mem_append.mp hk with hk | hk
      · exact hb hp.1 k hk
      · exact mem_singleton.mp hk ▸ hp.2)
    simpa using this

structure BlockChecked (m : Module) (f : FuncId) (b : BlockId) : Prop where
  owned : b.func = f
  instr : ∀ pre i post, (m.block b).instrs = pre ++ i :: post → m.Checked f b pre i post
  terminator : ∃ is t, (m.block b).instrs = is ++ [t] ∧ (m.instr t).op.isTerminator = true ∧
    (∀ c, c ∈ m.targets t ↔ c ∈ m.succs b)
  succs : ∀ c ∈ m.succs b, b ∈ m.preds c
  preds : ∀ c ∈ m.preds b, b ∈ m.succs c

theorem blockDefect?_eq_none (h : m.blockDefect? f b = none) : BlockChecked m f b := by
  rw [blockDefect?] at h
  split at h
  · cases h
  · rename_i howned
    split at h
    · cases h
    · rename_i t ht
      obtain ⟨h1,h2⟩ := orElse_eq_none.mp h
      obtain ⟨h2,h3⟩ := orElse_eq_none.mp h2
      obtain ⟨h3,h4⟩ := orElse_eq_none.mp h3
      rw [findSome?_eq_none_iff] at h2 h3 h4
      have htargets : ∀ c ∈ m.targets t, c ∈ m.succs b ∧ b ∈ m.preds c := by
        intro c hc
        have := h2 c hc
        split at this
        · cases this
        · rename_i hs
          split at this
          · cases this
          · rename_i hp
            exact ⟨not_not.mp hs,not_not.mp hp⟩
      have hsuccs : ∀ c ∈ m.succs b, c ∈ m.targets t := by
        intro c hc
        have := h3 c hc
        split at this
        · cases this
        · rename_i hs
          exact not_not.mp hs
      rw [terminator?,Option.filter_eq_some_iff] at ht
      obtain ⟨is,his⟩ := getLast?_eq_some_iff.mp ht.1
      refine ⟨not_not.mp howned,fun pre i post hi => ?_,
        ⟨is,t,his,ht.2,fun c => ⟨fun hc => (htargets c hc).1,hsuccs c⟩⟩,
        fun c hc => (htargets c (hsuccs c hc)).2,fun c hc => ?_⟩
      · exact instrsDefect?_eq_none h1 hi [] (by simp)
      · have := h4 c hc
        split at this
        · cases this
        · rename_i hs
          exact not_not.mp hs

/-! The other way round: a function of which all this holds passes the check. -/

theorem pairsDefect?_of_pairs {ps : List (Operand × BlockId)} (hnd : (ps.map (·.2)).Nodup)
    (hps : ∀ x ∈ ps, x.2 ∈ m.preds b ∧ x.2 ∉ seen) :
    m.pairsDefect? b seen (arms ps) = none := by
  induction ps generalizing seen with
  | nil => rfl
  | cons x ps ih =>
    obtain ⟨hp,hs⟩ := hps x mem_cons_self
    rw [map_cons,nodup_cons] at hnd
    have hp : x.2 ∈ (m.block b).preds := hp
    simp only [flatMap_cons,cons_append,pairsDefect?,hs,hp]
    refine ih hnd.2 fun y hy => ⟨(hps y (mem_cons_of_mem _ hy)).1,fun hm => ?_⟩
    rcases mem_cons.mp hm with heq | hm
    · exact hnd.1 (mem_map.mpr ⟨y,hy,heq⟩)
    · exact (hps y (mem_cons_of_mem _ hy)).2 hm

theorem Checked.instrDefect?_eq_none (h : m.Checked f b pre i post)
    (hp : (∀ j ∈ pre, (m.instr j).op = .phi) → inPhis = true) (hl : post = [] → last = true) :
    m.instrDefect? f b inPhis last i = none := by
  have hphi : (m.instr i).op = .phi → inPhis = true := fun hop => hp (h.phi hop)
  have hlast : (m.instr i).op.isTerminator = true → last = true := fun hop => hl (h.last hop)
  have h1 : ¬((m.instr i).op.isTerminator && !last) = true := by simpa using hlast
  have h2 : ¬(decide ((m.instr i).op = .phi) && !inPhis) = true := by simpa using hphi
  simp only [instrDefect?,h.parent,ne_eq,if_neg h1,if_neg h2]
  refine orElse_eq_none.mpr ⟨?_,orElse_eq_none.mpr ⟨?_,findSome?_eq_none_iff.mpr h.operand⟩⟩
  · split
    · rename_i hop
      obtain ⟨ps,ho,hnd,hps⟩ := h.pairs hop
      have heven : (m.operands i).length % 2 = 0 := by
        rw [ho,length_flatMap]
        simp
      rw [phiDefect?,heven,ho,pairsDefect?_of_pairs hnd fun x hx => ⟨hps x hx,by simp⟩]
      rfl
    · rfl
  · refine if_neg fun hv => ?_
    simp only [Bool.and_eq_true,Bool.not_eq_true',isEmpty_eq_false_iff] at hv
    exact hv.2 (h.void hv.1)

theorem instrsDefect?_of_checked (before : List InstrId)
    (h : ∀ pre i post, is = pre ++ i :: post → m.Checked f b (before ++ pre) i post)
    (hb : (∀ j ∈ before, (m.instr j).op = .phi) → inPhis = true) :
    m.instrsDefect? f b inPhis is = none := by
  induction is generalizing inPhis before with
  | nil => rfl
  | cons i is ih =>
    rw [instrsDefect?]
    refine orElse_eq_none.mpr ⟨(h [] i is rfl).instrDefect?_eq_none (by simpa using hb)
      (by simp +contextual),?_⟩
    refine ih (before ++ [i]) (fun pre j post hs => ?_) fun hall => ?_
    · simpa using h (i :: pre) j post (by rw [hs]; rfl)
    · grind

theorem BlockChecked.blockDefect?_eq_none (h : m.BlockChecked f b) : m.blockDefect? f b = none := by
  obtain ⟨is,t,his,ht,htargets⟩ := h.terminator
  have hterm : m.terminator? b = some t := by
    rw [terminator?,his,getLast?_append]
    simp [ht]
  simp only [blockDefect?,h.owned,ne_eq,hterm]
  refine orElse_eq_none.mpr ⟨instrsDefect?_of_checked [] h.instr (by simp),?_⟩
  refine orElse_eq_none.mpr ⟨?_,orElse_eq_none.mpr ⟨?_,?_⟩⟩ <;>
    refine findSome?_eq_none_iff.mpr fun c hc => ?_
  · have hs : c ∈ (m.block b).succs := (htargets c).mp hc
    have hp : b ∈ (m.block c).preds := h.succs c hs
    simp only [hs,hp,not_true_eq_false,if_false]
  · have ht : c ∈ m.targets t := (htargets c).mpr hc
    simp only [ht,not_true_eq_false,if_false]
  · have hs : b ∈ (m.block c).succs := h.preds c hc
    simp only [hs,not_true_eq_false,if_false]

theorem verify_of_blockChecked (h : ∀ b ∈ (m.func f).layout, m.BlockChecked f b) :
    m.verify f = .ok () :=
  verify_eq_ok_iff.mpr (findSome?_eq_none_iff.mpr fun b hb => (h b hb).blockDefect?_eq_none)

theorem blockChecked (h : m.verify f = .ok ()) (hb : b ∈ (m.func f).layout) : BlockChecked m f b :=
  blockDefect?_eq_none (findSome?_eq_none_iff.mp (verify_eq_ok_iff.mp h) b hb)

theorem mem_blocksOf {vs : List Operand} {c : BlockId} :
    c ∈ vs.filterMap blockOf? ↔ .block c ∈ vs := by
  rw [mem_filterMap]
  constructor
  · rintro ⟨v,hv,hc⟩
    cases v <;> simp only [blockOf?,reduceCtorEq,Option.some.injEq] at hc
    exact hc ▸ hv
  · exact fun hv => ⟨_,hv,rfl⟩

theorem mem_targets {t : InstrId} {c : BlockId} :
    c ∈ m.targets t ↔ (m.instr t).op = .br ∧ .block c ∈ m.operands t := by
  rw [targets]
  split
  · rename_i hop
    rw [mem_blocksOf,and_iff_right hop]
  · simp_all

end Module

/-- What the operations on a graph keep and the check takes for granted: uses are recorded, and
blocks and instructions stand in one place. -/
structure Tidy (m : Module) (f : FuncId) : Prop where
  mirror : m.Mirror
  layout_nodup : (m.func f).layout.Nodup
  listed : ∀ n, n < (m.func f).blocks.size → (⟨f,n⟩ : BlockId) ∈ (m.func f).layout
  nodup : ∀ b ∈ (m.func f).layout, (m.block b).instrs.Nodup

/-- What whoever puts a function together sees to, and the check takes for granted. -/
structure Assembled (m : Module) (f : FuncId) : Prop extends Tidy m f where
  branch : ∀ i ∈ m.instrs f, (m.instr i).op = .br →
    (∃ c, m.operands i = [.block c]) ∨ ∃ v c d, m.operands i = [v,.block c,.block d]
  call : ∀ i ∈ m.instrs f, (m.instr i).op = .call →
    ∃ g vs, m.operands i = .func g :: vs ∧ g ∈ m.funcs
  store_void : ∀ i ∈ m.instrs f, (m.instr i).op = .store → (m.instr i).type.isVoid = true

/-- Single assignment: what is reached reads only what has been computed, a phi at the end of the
block a value comes from, and who reads a value of the function is part of the function. -/
structure SingleAssignment (m : Module) (f : FuncId) (e : BlockId) : Prop where
  dominated : ∀ b, m.Reaches e b → ∀ pre i post, (m.block b).instrs = pre ++ i :: post →
    (m.instr i).op ≠ .phi →
    ∀ j, .instr j ∈ m.operands i → Available m (fun c => (m.block c).instrs) e b pre j
  phi_dominated : ∀ b, m.Reaches e b → ∀ p ∈ (m.block b).instrs, (m.instr p).op = .phi →
    ∀ q, m.Reaches e q → ∀ j,
    (Operand.instr j,Operand.block q) ∈ m.incoming p →
    Available m (fun c => (m.block c).instrs) e q (m.block q).instrs j
  linked : ∀ i ∈ m.instrs f, ∀ u ∈ m.uses (.instr i), u ∈ m.instrs f

/-- Without phis it is enough that operands come from further up in the block or from the entry. -/
theorem SingleAssignment.of_entry (he : e ∈ (m.func f).layout)
    (hclosed : ∀ b ∈ (m.func f).layout, ∀ c ∈ m.succs b, c ∈ (m.func f).layout)
    (hphi : ∀ i ∈ m.instrs f, (m.instr i).op ≠ .phi)
    (hread : ∀ b ∈ (m.func f).layout, ∀ k, k < (m.block b).instrs.length →
      (m.operands ((m.block b).instrs.getD k 0)).all (fun
        | .instr j => j ∈ (m.block b).instrs.take k || (e ≠ b && j ∈ (m.block e).instrs)
        | _ => true) = true)
    (hlinked : ∀ i ∈ m.instrs f, ∀ u ∈ m.uses (.instr i), u ∈ m.instrs f) :
    SingleAssignment m f e := by
  have hreach : ∀ {b}, m.Reaches e b → b ∈ (m.func f).layout := fun hb =>
    hb.induction (P := (· ∈ (m.func f).layout)) he fun b c _ hb hc => hclosed b hb c hc
  refine ⟨fun b hb pre i post hpp _ j hj => ?_,fun b hb p hp hop => ?_,hlinked⟩
  · have := all_eq_true.mp (hread b (hreach hb) pre.length (by simp [hpp])) (.instr j)
      (by simpa [hpp] using hj)
    simp only [hpp,take_left,Bool.or_eq_true,Bool.and_eq_true,decide_eq_true_eq] at this
    exact this.imp_right fun h => ⟨e,h.1,.entry _ _ _,h.2⟩
  · exact absurd hop (hphi p (Module.mem_instrs_iff.mpr ⟨b,hreach hb,hp⟩))

namespace Tidy
variable {b : BlockId}

theorem instrs_nodup (ha : Tidy m f) (hv : m.verify f = .ok ()) : (m.instrs f).Nodup := by
  refine nodup_flatMap.mpr ⟨ha.nodup,ha.layout_nodup.imp_of_mem fun {b c} hb hc hne => ?_⟩
  -- an instruction knows its block
  intro i hib hic
  have hparent : ∀ {b}, b ∈ (m.func f).layout → i ∈ (m.block b).instrs →
      (m.instr i).parent = some b := by
    intro b hb hi
    obtain ⟨pre,post,hpp⟩ := append_of_mem hi
    exact ((Module.blockChecked hv hb).instr pre i post hpp).parent
  grind

theorem mem_layout_of_preds (ha : Tidy m f) (hf : b.func = f) (hp : m.preds b ≠ []) :
    b ∈ (m.func f).layout := by
  obtain ⟨g,n⟩ := b
  subst hf
  refine ha.listed n (Nat.not_le.mp fun hn => hp ?_)
  rw [Module.preds,Module.block,Table.get_of_size_le _ hn]
  rfl

theorem terminated (hv : m.verify f = .ok ()) (hb : b ∈ (m.func f).layout) :
    ∃ is t, m.body b = is ++ [t] ∧ (m.instr t).op.isTerminator = true ∧
      (∀ i ∈ is, (m.instr i).op.isTerminator = false) ∧
      ∀ c, c ∈ m.targets t ↔ c ∈ m.succs b := by
  have hc := Module.blockChecked hv hb
  obtain ⟨is,t,his,ht,htargets⟩ := hc.terminator
  have hlast : (m.phis b ++ m.body b).getLast? = some t := by
    rw [← Module.instrs_eq_phis_append,his]
    simp
  obtain ⟨rest,hrest⟩ : ∃ rest, m.body b = rest ++ [t] := by
    rw [getLast?_append,Option.or_eq_some_iff] at hlast
    rcases hlast with hlast | ⟨_,hlast⟩
    · exact getLast?_eq_some_iff.mp hlast
    · rw [Module.op_of_mem_phis (mem_of_getLast? hlast)] at ht
      cases ht
  refine ⟨rest,t,hrest,ht,fun i hi => ?_,htargets⟩
  obtain ⟨pre,post,hpp⟩ := append_of_mem hi
  refine eq_false_of_ne_true fun hterm => ?_
  have hsplit : (m.block b).instrs = (m.phis b ++ pre) ++ i :: (post ++ [t]) := by
    rw [Module.instrs_eq_phis_append,hrest,hpp]
    simp
  simpa using (hc.instr _ _ _ hsplit).last hterm

theorem not_phi (hv : m.verify f = .ok ()) (hb : b ∈ (m.func f).layout) (hi : i ∈ m.body b) :
    (m.instr i).op ≠ .phi := by
  intro hop
  obtain ⟨pre,post,hpp⟩ := append_of_mem hi
  have hsplit : (m.block b).instrs = (m.phis b ++ pre) ++ i :: post := by
    rw [Module.instrs_eq_phis_append,hpp,append_assoc]
  have hall := ((Module.blockChecked hv hb).instr _ _ _ hsplit).phi hop
  -- the phis in front would then include the first instruction of the body
  have htake : m.phis b = (m.phis b ++ pre ++ [i]) ++ post.takeWhile fun j =>
      (m.instr j).op = .phi := by
    conv_lhs => rw [Module.phis,hsplit]
    simp_all
  have := congrArg length htake
  simp only [length_append,length_singleton] at this
  omega

theorem closed (ha : Tidy m f) (hv : m.verify f = .ok ()) (hb : b ∈ (m.func f).layout) {c : BlockId}
    (hc : c ∈ m.succs b) :
    c ∈ (m.func f).layout := by
  have hcheck := Module.blockChecked hv hb
  obtain ⟨is,t,his,_,htargets⟩ := hcheck.terminator
  obtain ⟨_,hop⟩ := Module.mem_targets.mp ((htargets c).mpr hc)
  have hdef := (hcheck.instr is t [] his).operand _ hop
  refine ha.mem_layout_of_preds ?_ (ne_nil_of_mem (hcheck.succs c hc))
  simpa [Module.operandDefect?] using hdef

theorem operand (hv : m.verify f = .ok ()) (hi : i ∈ m.instrs f) {j : InstrId}
    (hj : .instr j ∈ m.operands i) :
    (∃ b, (m.instr j).parent = some b ∧ b.func = f) ∧ (m.instr j).type.isVoid = false := by
  obtain ⟨b,hb,hib⟩ := Module.mem_instrs_iff.mp hi
  obtain ⟨pre,post,hpp⟩ := append_of_mem hib
  have hdef := ((Module.blockChecked hv hb).instr pre i post hpp).operand _ hj
  rw [Module.operandDefect?] at hdef
  split at hdef
  · cases hdef
  · rename_i hpar
    split at hdef
    · cases hdef
    · rename_i hvoid
      refine ⟨?_,eq_false_of_ne_true hvoid⟩
      simpa [Option.all_eq_true] using hpar

theorem formed (ha : Tidy m f) (hv : m.verify f = .ok ()) (hs : SingleAssignment m f e)
    (hst : ∀ i ∈ m.instrs f, (m.instr i).op = .store → (m.instr i).type.isVoid = true)
    (he : (m.func f).layout.head? = some e) : Formed m f e := by
  have hcheck : ∀ b ∈ (m.func f).layout, m.BlockChecked f b := fun b hb => Module.blockChecked hv hb
  have hreach : ∀ {b}, m.Reaches e b → b ∈ (m.func f).layout := fun hb =>
    hb.induction (P := (· ∈ (m.func f).layout)) (mem_of_mem_head? (by simp [he])) fun b c _ hb hc =>
      ha.closed hv hb hc
  have hphi : ∀ b ∈ (m.func f).layout, ∀ i ∈ (m.block b).instrs, (m.instr i).op = .phi →
      i ∈ m.phis b := by
    intro b hb i hi hop
    rw [Module.instrs_eq_phis_append] at hi
    exact (mem_append.mp hi).resolve_right fun hi => not_phi hv hb hi hop
  exact {
    entry := he
    owned := fun b hb => (hcheck b hb).owned
    layout_nodup := ha.layout_nodup
    nodup := ha.instrs_nodup hv
    parent := fun b hb i hi => by
      obtain ⟨pre,post,hpp⟩ := append_of_mem hi
      exact ((hcheck b hb).instr pre i post hpp).parent
    not_phi := fun b hb i hi => not_phi hv hb hi
    terminated := fun b hb => by
      obtain ⟨is,t,h1,h2,h3,_⟩ := terminated hv hb
      exact ⟨is,t,h1,h2,h3⟩
    closed := fun _ hb _ => ha.closed hv hb
    mirrored := fun b hb c hc => ⟨(hcheck c hc).preds b,(hcheck b hb).succs c⟩
    pairs := fun b hb p hp => by
      obtain ⟨pre,post,hpp⟩ := append_of_mem (Module.phis_subset m b hp)
      obtain ⟨ps,hps,_⟩ := ((hcheck b hb).instr pre p post hpp).pairs (Module.op_of_mem_phis hp)
      exact ⟨ps,hps⟩
    valued := fun _ hi _ hj => (operand hv hi hj).2
    home := fun _ hi _ hj => (operand hv hi hj).1
    store_void := hst
    dominated := fun b hb pre i post hpp hi =>
      hs.dominated b hb pre i post hpp fun hop => hi (hphi b (hreach hb) i (by simp [hpp]) hop)
    phi_dominated := fun b hb p hp => hs.phi_dominated b hb p (Module.phis_subset m b hp)
      (Module.op_of_mem_phis hp) }

end Tidy

namespace Assembled

theorem runnable (ha : Assembled m f) (hv : m.verify f = .ok ()) (hs : SingleAssignment m f e)
    (he : (m.func f).layout.head? = some e) : Runnable m f e where
  toFormed := ha.toTidy.formed hv hs ha.store_void he
  branch b hb i hi hop := by
    obtain ⟨is,t,h1,_,h3,htargets⟩ := Tidy.terminated hv hb
    have hit : i = t := by
      rw [h1] at hi
      rcases mem_append.mp hi with hi | hi
      · have := h3 i hi
        rw [hop] at this
        cases this
      · exact mem_singleton.mp hi
    subst hit
    have hsucc : ∀ {c}, .block c ∈ m.operands i → c ∈ m.succs b := fun hc =>
      (htargets _).mp (Module.mem_targets.mpr ⟨hop,hc⟩)
    rcases ha.branch i (Module.mem_instrs_iff.mpr ⟨b,hb,Module.body_subset m b hi⟩) hop
      with ⟨c,hc⟩ | ⟨v,c,d,hc⟩
    · exact .inl ⟨c,hsucc (by simp [hc]),hc⟩
    · grind
  call := ha.call

end Assembled
end CMinusF
