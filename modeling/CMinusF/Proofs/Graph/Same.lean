import CMinusF.Proofs.Graph.Code
import CMinusF.Proofs.Graph.Formed

/-! Two modules that agree on one function: what is said of the function in one holds in the other.
-/
namespace CMinusF
open CMinusF.Module
variable {m n : Module} {f : FuncId} {e : BlockId}

structure SameOn (m n : Module) (f : FuncId) : Prop where
  funcs : n.funcs = m.funcs
  layout : (n.func f).layout = (m.func f).layout
  block : ∀ b ∈ (m.func f).layout, n.code.block b = m.code.block b
  instr : ∀ i ∈ m.instrs f, n.code.instr i = m.code.instr i
  mentioned : ∀ i ∈ m.instrs f, ∀ j, .instr j ∈ m.operands i →
    (n.instr j).type = (m.instr j).type ∧ (n.instr j).parent = (m.instr j).parent

namespace SameOn
variable {a b : BlockId} {bs : List BlockId} {i : InstrId}

variable (h : SameOn m n f)
include h

theorem instrs_block (hb : b ∈ (m.func f).layout) : (n.block b).instrs = (m.block b).instrs :=
  (lists_of_code (h.block b hb)).1

theorem edges (hb : b ∈ (m.func f).layout) : n.succs b = m.succs b ∧ n.preds b = m.preds b :=
  (lists_of_code (h.block b hb)).2

theorem instrs : n.instrs f = m.instrs f := by
  rw [Module.instrs,h.layout]
  exact List.flatMap_congr fun b hb => h.instrs_block hb

theorem lasts (hi : i ∈ m.instrs f) : Lasts m n i := lasts_of_code (h.instr i hi)

theorem operands (hi : i ∈ m.instrs f) : n.operands i = m.operands i :=
  (congrArg Instr.operands (h.instr i hi) :)

theorem phis (hb : b ∈ (m.func f).layout) : n.phis b = m.phis b :=
  phis_congr (h.instrs_block hb) fun _ hi => (h.lasts (mem_instrs_iff.mpr ⟨b,hb,hi⟩)).op

theorem body (hb : b ∈ (m.func f).layout) : n.body b = m.body b := by
  rw [Module.body,Module.body,h.phis hb,h.instrs_block hb]

theorem trail (hF : Formed m f e) : n.Trail e b bs ↔ m.Trail e b bs := by
  constructor
  · intro ht
    induction ht with
    | start => exact .start
    | step _ hc ih => exact ih.step ((h.edges (hF.mem_layout ⟨_,ih⟩)).1 ▸ hc)
  · intro ht
    induction ht with
    | start => exact .start
    | step ht hc ih => exact ih.step ((h.edges (hF.mem_layout ⟨_,ht⟩)).1 ▸ hc)

theorem reaches (hF : Formed m f e) : n.Reaches e b ↔ m.Reaches e b :=
  exists_congr fun _ => h.trail hF

theorem dominates (hF : Formed m f e) : n.Dominates e a b ↔ m.Dominates e a b :=
  forall_congr' fun _ => imp_congr_left (h.trail hF)

theorem available (hF : Formed m f e) (hb : m.Reaches e b) {done : List InstrId} {j : InstrId}
    (hj : Available m (fun c => (m.block c).instrs) e b done j) :
    Available n (fun c => (n.block c).instrs) e b done j := by
  refine hj.imp_right fun ⟨c,hc,hd,hjc⟩ => ⟨c,hc,(h.dominates hF).mpr hd,?_⟩
  simp only
  rwa [h.instrs_block (hF.mem_layout (hd.reaches hb))]

end SameOn

theorem Formed.of_same (hF : Formed m f e) (h : SameOn m n f) : Formed n f e := by
  have hin : ∀ {b}, b ∈ (m.func f).layout → ∀ {i}, i ∈ (m.block b).instrs → i ∈ m.instrs f :=
    fun hb _ hi => mem_instrs_iff.mpr ⟨_,hb,hi⟩
  constructor
  case entry => exact h.layout ▸ hF.entry
  case owned => exact h.layout ▸ hF.owned
  case layout_nodup => exact h.layout ▸ hF.layout_nodup
  case nodup => exact h.instrs ▸ hF.nodup
  case parent =>
    rw [h.layout]
    intro b hb i hi
    rw [h.instrs_block hb] at hi
    rw [(h.lasts (hin hb hi)).parent]
    exact hF.parent b hb i hi
  case not_phi =>
    rw [h.layout]
    intro b hb i hi
    rw [h.body hb] at hi
    rw [(h.lasts (hin hb (body_subset m b hi))).op]
    exact hF.not_phi b hb i hi
  case terminated =>
    rw [h.layout]
    intro b hb
    obtain ⟨is,t,hbody,ht,his⟩ := hF.terminated b hb
    have hop : ∀ i ∈ m.body b, (n.instr i).op = (m.instr i).op :=
      fun i hi => (h.lasts (hin hb (body_subset m b hi))).op
    refine ⟨is,t,(h.body hb).trans hbody,?_,fun i hi => ?_⟩
    · rw [hop t (hbody ▸ by simp)]
      exact ht
    · grind
  case closed =>
    rw [h.layout]
    intro b hb c hc
    exact hF.closed b hb c ((h.edges hb).1 ▸ hc)
  case mirrored =>
    rw [h.layout]
    intro b hb c hc
    rw [(h.edges hb).1,(h.edges hc).2]
    exact hF.mirrored b hb c hc
  case pairs =>
    rw [h.layout]
    intro b hb p hp
    rw [h.phis hb] at hp
    rw [h.operands (hin hb (phis_subset m b hp))]
    exact hF.pairs b hb p hp
  case valued =>
    rw [h.instrs]
    intro i hi j hj
    rw [h.operands hi] at hj
    rw [(h.mentioned i hi j hj).1]
    exact hF.valued i hi j hj
  case home =>
    rw [h.instrs]
    intro i hi j hj
    rw [h.operands hi] at hj
    rw [(h.mentioned i hi j hj).2]
    exact hF.home i hi j hj
  case store_void =>
    rw [h.instrs]
    intro i hi hop
    rw [(h.lasts hi).op] at hop
    rw [(h.lasts hi).type]
    exact hF.store_void i hi hop
  case dominated =>
    intro b hb pre i post hs hi j hj
    have hb := (h.reaches hF).mp hb
    have hbl := hF.mem_layout hb
    rw [h.instrs_block hbl] at hs
    rw [h.phis hbl] at hi
    rw [h.operands (hin hbl (hs ▸ by simp))] at hj
    exact h.available hF hb (hF.dominated b hb pre i post hs hi j hj)
  case phi_dominated =>
    intro b hb p hp q hq j hj
    have hb := (h.reaches hF).mp hb
    have hq := (h.reaches hF).mp hq
    have hbl := hF.mem_layout hb
    rw [h.phis hbl] at hp
    rw [incoming,h.operands (hin hbl (phis_subset m b hp))] at hj
    rw [h.instrs_block (hF.mem_layout hq)]
    exact h.available hF hq (hF.phi_dominated b hb p hp q hq j hj)

theorem Runnable.of_same (hF : Runnable m f e) (h : SameOn m n f) :
    Runnable n f e where
  toFormed := hF.toFormed.of_same h
  branch := by
    rw [h.layout]
    intro b hb i hi hop
    rw [h.body hb] at hi
    have him := mem_instrs_iff.mpr ⟨b,hb,body_subset m b hi⟩
    rw [(h.lasts him).op] at hop
    rw [h.operands him,(h.edges hb).1]
    exact hF.branch b hb i hi hop
  call := by
    rw [h.instrs,h.funcs]
    intro i hi hop
    rw [(h.lasts hi).op] at hop
    rw [h.operands hi]
    exact hF.call i hi hop

end CMinusF
