import CMinusF.Proofs.Lowering.Form
import CMinusF.Proofs.Promotion.Correct

/-! Lowered code is as promotion expects it. -/
namespace CMinusF
open List
variable {m : Module} {i n : InstrId} {op : Opcode} {t : Ty} {object : Option Ty}
  {vs : List Operand}

namespace Lowering
variable {L : Law} {ns : Notes} {b : BlockId} {f : FuncId} {e : BlockId}

theorem Laid.func_of_mem_layout (hm : Laid L m ns) (hb : b ∈ (m.func f).layout) :
    b.func = f ∧ m.Listed b := by
  have hbf : b.func = f := by
    rw [hm.layout] at hb
    obtain ⟨k,-,rfl⟩ := mem_map.mp hb
    rfl
  exact ⟨hbf,by rw [Module.Listed,hbf]; exact hb⟩

theorem Laid.fits_of_mem (hm : Laid L m ns) (hi : i ∈ m.instrs f) :
    ∃ b, b.func = f ∧ m.Listed b ∧ i ∈ (m.block b).instrs ∧ FitsAt L m ns b i := by
  obtain ⟨b,hb,hib⟩ := Module.mem_instrs_iff.mp hi
  obtain ⟨hbf,hl⟩ := hm.func_of_mem_layout hb
  obtain ⟨hlt,hp⟩ := hm.member b i hib
  exact ⟨b,hbf,hl,hib,hm.fits i hlt b hp⟩

/-- The allocas of a block are in order and so is the rest, and nothing is both. -/
theorem Laid.nodup (hm : Laid L m ns) (b : BlockId) : (m.block b).instrs.Nodup := by
  rw [← m.heads_append_work]
  refine nodup_append'.mpr ⟨(hm.heads b).imp Nat.ne_of_lt,(hm.work b).imp Nat.ne_of_lt,
    fun i hh hw => ?_⟩
  exact hm.work_op b i hw (Module.op_of_mem_heads hh)

theorem Fits.br_operands (h : Fits L m ns b n op t object vs)
    (ho : op = .br) : (∃ c, vs = [.block c]) ∨ ∃ v c d, vs = [v,.block c,.block d] := by
  subst ho
  cases h with
  | br => exact .inl ⟨_,rfl⟩
  | condBr => exact .inr ⟨_,_,_,rfl⟩

theorem Fits.call_operands (h : Fits L m ns b n op t object vs)
    (ho : op = .call) : ∃ g us, vs = .func g :: us ∧ g < m.funcTable.size := by
  subst ho
  cases h with
  | call hg => exact ⟨_,_,rfl,hg⟩

theorem Fits.store_void (h : Fits L m ns b n op t object vs)
    (ho : op = .store) : t = .void := by
  subst ho
  cases h <;> rfl

theorem Laid.assembled (hm : Laid L m ns) (f : FuncId) : Assembled m f where
  mirror := hm.mirror
  layout_nodup := by
    rw [hm.layout]
    exact nodup_range.map fun _ _ h => congrArg BlockId.number h
  listed n hn := by
    rw [hm.layout]
    exact mem_map_of_mem (mem_range.mpr hn)
  nodup b _ := hm.nodup b
  branch i hi ho := by
    obtain ⟨b,-,-,-,hx⟩ := hm.fits_of_mem hi
    exact hx.br_operands ho
  call i hi ho := by
    obtain ⟨b,-,-,-,hx⟩ := hm.fits_of_mem hi
    obtain ⟨g,us,hvs,hg⟩ := hx.call_operands ho
    exact ⟨g,us,hvs,by rw [hm.funcs]; exact mem_range.mpr hg⟩
  store_void i hi ho := by
    obtain ⟨b,-,-,-,hx⟩ := hm.fits_of_mem hi
    have ht : (m.instr i).type = .void := hx.store_void ho
    rw [ht]
    rfl

theorem Laid.mem_instrs_of_use (hm : Laid L m ns) {u : InstrId} (hi : i ∈ m.instrs f)
    (hu : u ∈ m.uses (.instr i)) :
    u ∈ m.instrs f := by
  have hiu := (hm.mirror.mem_uses_iff (by simp) u).mp hu
  have hlt : u < m.instrTable.size := Module.lt_size_of_ne fun hd => by
    rw [Module.operands,hd] at hiu
    cases hiu
  obtain ⟨c,hc,hp,huc⟩ := hm.linked u hlt
  obtain ⟨-,-,d,hd,ha⟩ := (hm.fits u hlt c hp).readable hm hc _ hiu
  obtain ⟨b,hbf,-,hib,-⟩ := hm.fits_of_mem hi
  cases hd.symm.trans (hm.member b i hib).2
  have hcf : c.func = f := (hm.func_of_above ha hc).1.symm.trans hbf
  exact Module.mem_instrs_iff.mpr ⟨c,hcf ▸ hc,huc⟩

theorem Built.mem_layout_of_reaches (hm : Built L m ns) (he : e ∈ (m.func f).layout)
    (hb : m.Reaches e b) : b ∈ (m.func f).layout := by
  refine hb.induction (P := (· ∈ (m.func f).layout)) he fun b c _ hb hc => ?_
  obtain ⟨-,hedge⟩ := hm.edge hc
  have hcf : c.func = f := hedge.func.trans (hm.func_of_mem_layout hb).1
  exact hcf ▸ hedge.listed

theorem Built.admissible (hm : Built L m ns) (hc : Canonical m f e) (hv : m.verify f = .ok ()) :
    Admissible m f e where
  verified := hv
  assembled := hm.assembled f
  ssa := by
    have hlay : ∀ b, m.Reaches e b → b ∈ (m.func f).layout := fun b hb =>
      hm.mem_layout_of_reaches (mem_of_mem_head? (Option.mem_def.mpr hc.entry)) hb
    refine ⟨fun b hb pre i post hs _ => hc.dominated b (hlay b hb) pre i post hs,
      fun b hb p hp hop => ?_,fun i hi u => hm.mem_instrs_of_use hi⟩
    exact absurd hop (hc.no_phi b (hlay b hb) p hp)
  entry := hc.entry
  entry_preds := hc.entry_preds
  allocas i hi ho := by
    obtain ⟨b,hb,hib⟩ := Module.mem_instrs_iff.mp hi
    exact (hc.allocas b hb i hib ho).1 ▸ hib

end Lowering

/-- Every function that an accepted program defines can have its locals promoted, provided that it
passes the check. -/
theorem ofSource_admissible {name source : String} (h : Module.ofSource name source = .ok m)
    (hv : ∀ f ∈ m.funcs, m.verify f = .ok ()) : m.Admissible := by
  obtain ⟨p,-,hl⟩ := Module.ofSource_eq_ok h
  obtain ⟨ns,xs,d,hs,rfl⟩ :=
    Lowering.sound_of_lower (fun _ _ => trivial) (fun x _ => Lowering.anyLaw_declares x) hl
  intro f hf hd
  have hne : (d.module.func f).layout ≠ [] := fun hnil => by simp [Func.isDeclaration,hnil] at hd
  exact ⟨_,hs.built.admissible (Lowering.canonical_of_sound hs hf hne) (hv f hf)⟩

end CMinusF
