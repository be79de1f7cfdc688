import CMinusF.Proofs.Lowering.Verified

/-! The form of lowered code: an entry that nothing leads back to, with all storage at its head and
the parameters stored right behind it; no phis; every block reached; and every operand computed when
it is read. -/
namespace CMinusF
open List
variable {i : InstrId} {n : Nat} {slots : List Operand} {is : List InstrId}

/-- The form in which lowering leaves a function and that later passes rely on. -/
structure Canonical (m : Module) (f : FuncId) (e : BlockId) : Prop where
  entry : (m.func f).entryBlock? = some e
  entry_preds : m.preds e = []
  reached : ∀ b ∈ (m.func f).layout, m.Reaches e b
  allocas : ∀ b ∈ (m.func f).layout, ∀ i ∈ (m.block b).instrs, (m.instr i).op = .alloca → b = e ∧
    i ∈ m.heads e
  /-- What follows the storage of the entry are stores of the parameters, in order, each in a slot
  of its own. -/
  params : ∃ slots is, slots.Nodup ∧ slots ⊆ m.heads e ∧ is <+: m.work e ∧
    is.length = (m.func f).params.length ∧
    slots.length = is.length ∧ ∀ k i j, is[k]? = some i → slots[k]? = some j →
      (m.instr i).op = .store ∧ m.operands i = [.arg f k,.instr j]
  no_phi : ∀ b ∈ (m.func f).layout, ∀ i ∈ (m.block b).instrs, (m.instr i).op ≠ .phi
  dominated : ∀ b ∈ (m.func f).layout, ∀ pre i post, (m.block b).instrs = pre ++ i :: post →
    ∀ j, .instr j ∈ m.operands i → Available m (fun c => (m.block c).instrs) e b pre j

namespace Lowering
variable {L : Law} {m : Module} {ns : Notes} {b c : BlockId} {f : FuncId}

theorem Fits.edge {n : InstrId} {op : Opcode} {t : Ty} {object : Option Ty} {vs : List Operand}
    (h : Fits L m ns b n op t object vs) (ho : op = .br) :
    ∀ c ∈ vs.filterMap Module.blockOf?, Edge m ns b c := by
  subst ho
  cases h with
  | br he => exact forall_mem_singleton.mpr he
  | condBr hv hc hd =>
    have hall : ∀ c ∈ [_,_], Edge m ns b c := forall_mem_cons.mpr ⟨hc,forall_mem_singleton.mpr hd⟩
    cases hv with
    | instr => exact hall

/-- A branch leads to a block directly below one that stands above the branch. -/
theorem Built.edge (hm : Built L m ns) (hc : c ∈ m.succs b) : m.Listed b ∧ Edge m ns b c := by
  obtain ⟨t,ht,hmem⟩ := (hm.charted.succs b c).mp hc
  obtain ⟨hlt,hp⟩ := hm.member b t ht
  have hbr : (m.instr t).op = .br := by
    by_contra hne
    rw [Module.targets_of_not_br hne] at hmem
    cases hmem
  rw [Module.targets,hbr] at hmem
  exact ⟨(hm.listed_of_parent hlt hp).1,(hm.fits t hlt b hp).edge hbr c hmem⟩

/-- The block of an instruction can be reached: the branch that leads there is an earlier
instruction. -/
theorem Built.reaches (hm : Built L m ns) (hi : i < m.instrTable.size)
    (hp : (m.code.instr i).parent = some b) :
    m.Reaches ⟨b.func,0⟩ b := by
  induction i using Nat.strongRecOn generalizing b with
  | ind i ih =>
    rcases (hm.suits i hi b hp).entered with h0 | ⟨t,ht,hb⟩
    · obtain ⟨f,k⟩ := b
      cases h0
      exact .refl m _
    · have hlt := Nat.lt_trans ht hi
      obtain ⟨q,-,hq,hmem⟩ := hm.linked t hlt
      have hs := (hm.charted.succs q b).mpr ⟨t,hmem,hb⟩
      rw [(hm.edge hs).2.func]
      exact (ih t ht hlt hq).step hs

/-- What stands above a block dominates it: a trail that gets below a block has passed it. -/
theorem Built.dominates_of_above (hm : Built L m ns) {a : BlockId} (hb : m.Listed b)
    (ha : Above ns a b) :
    m.Dominates ⟨b.func,0⟩ a b := by
  have key : ∀ {e b bs}, m.Trail e b bs → e.number = 0 → m.Listed e → ∀ a, Above ns a b →
      a ∈ bs := by
    intro e b bs ht h0 he
    induction ht with
    | start =>
      intro a ha
      cases ha with
      | refl => exact mem_cons_self
      | step hu _ =>
        rw [(hm.tree.root e he).mpr h0] at hu
        cases hu
    | step ht hc ih =>
      intro a ha
      cases ha with
      | refl => exact mem_cons_self
      | step hu ha =>
        obtain ⟨u,hu',hab⟩ := (hm.edge hc).2.up
        cases hu.symm.trans hu'
        exact mem_cons_of_mem _ (ih a (ha.trans hab))
  intro bs ht
  exact key ht rfl (hm.listed_of_above (hm.above_entry hb) hb) a ha

theorem Laid.mem_heads_of_alloca (hm : Laid L m ns) (hi : i ∈ (m.block b).instrs)
    (ho : (m.instr i).op = .alloca) :
    i ∈ m.heads b := by
  rw [← m.heads_append_work] at hi
  exact (mem_append.mp hi).resolve_right fun hw => hm.work_op b i hw ho

theorem Stores.get (h : Stores m f n slots is) {k : Nat}
    (hi : is[k]? = some i) : ∃ slot, slots[k]? = some slot ∧ (m.instr i).op = .store ∧
      m.operands i = [.arg f (n + k),slot] := by
  induction h generalizing k with
  | nil => cases hi
  | cons _ ho hv _ ih =>
    cases k with
    | zero =>
      cases hi
      exact ⟨_,rfl,ho,hv⟩
    | succ k =>
      grind

theorem Stores.length (h : Stores m f n slots is) : is.length = slots.length := by
  induction h with
  | nil => rfl
  | cons _ _ _ _ ih => rw [length_cons,length_cons,ih]

theorem slots_eq_map {ts : List Ty} (h : List.Forall₂ (HasSlot m f) slots ts) :
    ∃ js : List InstrId, slots = js.map .instr ∧ ∀ j ∈ js, j < m.instrTable.size ∧
      (m.code.instr j).parent = some ⟨f,0⟩ ∧
      (m.code.instr j).op = .alloca := by
  induction h with
  | nil => exact ⟨[],rfl,fun _ h => absurd h not_mem_nil⟩
  | cons hx _ ih =>
    obtain ⟨js,rfl,hjs⟩ := ih
    obtain ⟨j,rfl,hp⟩ := hx
    cases hp with
    | slot hj hpar ho => exact ⟨j :: js,rfl,forall_mem_cons.mpr ⟨⟨hj,hpar,ho⟩,hjs⟩⟩

theorem canonical_of_sound {xs : List Builtin} {d : Declared} (hs : Sound L xs d ns)
    (hf : f ∈ d.module.funcs) (hl : (d.module.func f).layout ≠ []) :
    Canonical d.module f ⟨f,0⟩ := by
  have hm := hs.built
  have hlt : f < d.module.funcTable.size := by
    rw [hm.funcs] at hf
    exact mem_range.mp hf
  have hentry := hm.listed_entry hl
  have hfunc : ∀ {b}, b ∈ (d.module.func f).layout → b.func = f ∧ d.module.Listed b := by
    intro b hb
    have hbf : b.func = f := by
      rw [hm.layout] at hb
      obtain ⟨k,-,rfl⟩ := mem_map.mp hb
      rfl
    exact ⟨hbf,by rw [Module.Listed,hbf]; exact hb⟩
  have hfits : ∀ {b i}, i ∈ (d.module.block b).instrs → FitsAt L d.module ns b i := fun hi =>
    hm.fits _ (hm.member _ _ hi).1 _ (hm.member _ _ hi).2
  constructor
  case entry => exact hm.toLaid.head_layout hentry
  case entry_preds =>
    refine eq_nil_iff_forall_not_mem.mpr fun p hp => ?_
    obtain ⟨-,he⟩ := hm.edge ((hm.charted.preds p _).mp hp)
    obtain ⟨u,hu,-⟩ := he.up
    rw [(hm.tree.root _ hentry).mpr rfl] at hu
    cases hu
  case reached =>
    intro b hb
    obtain ⟨rfl,hlist⟩ := hfunc hb
    have hend : ∃ i, i ∈ d.module.work b := by
      by_contra hno
      exact hs.closed b ⟨hlist,fun i hi => absurd ⟨i,hi⟩ hno⟩
    obtain ⟨i,hi⟩ := hend
    exact hm.reaches (hm.member b i (Laid.mem_work hi)).1 (hm.member b i (Laid.mem_work hi)).2
  case allocas =>
    intro b hb i hi ho
    obtain ⟨hbf,-⟩ := hfunc hb
    obtain ⟨h0,-⟩ := (hfits hi).alloca_inv ho
    have hbe : b = ⟨f,0⟩ := by
      obtain ⟨g,k⟩ := b
      cases hbf
      cases h0
      rfl
    exact ⟨hbe,hbe ▸ hm.toLaid.mem_heads_of_alloca hi ho⟩
  case params =>
    obtain ⟨slots,is,hnd,hslots,hstores,hpre⟩ := hs.params f hlt hl
    obtain ⟨js,rfl,hjs⟩ := slots_eq_map hslots
    have hlen := hslots.length_eq
    rw [length_map] at hlen
    refine ⟨js,is,hnd.of_map,fun j hj => ?_,hpre,?_,?_,fun k i j hi hj => ?_⟩
    · obtain ⟨hjl,hp,ho⟩ := hjs j hj
      exact hm.toLaid.mem_heads_of_alloca (hm.listed_of_parent hjl hp).2 ho
    · rw [hstores.length,length_map,hlen]
    · rw [hstores.length,length_map]
    · obtain ⟨slot,hslot,ho,hv⟩ := hstores.get hi
      simp_all
  case no_phi => exact fun b _ i hi => (hfits hi).op_ne_phi
  case dominated =>
    intro b hb pre i post hsplit j hj
    obtain ⟨rfl,hlist⟩ := hfunc hb
    have hi : i ∈ (d.module.block b).instrs := hsplit ▸ mem_append_right _ mem_cons_self
    obtain ⟨hji,-,c,hp,ha⟩ := (hfits hi).readable hm.toLaid hlist _ hj
    have hjm := (hm.listed_of_parent (Nat.lt_trans hji (hm.member b i hi).1) hp).2
    by_cases hcb : c = b
    · subst hcb
      refine .inl (hm.toLaid.mem_before hsplit (fun ho => ?_) hjm hji)
      rw [show d.module.operands i = [] from (hfits hi).alloca_operands ho] at hj
      cases hj
    · exact .inr ⟨c,hcb,hm.dominates_of_above hlist ha,hjm⟩

def anyLaw : Law := ⟨fun _ => True,trivial,fun _ => True,True⟩

mutual
theorem anyLaw_allows : (st : Stmt) → anyLaw.allows st
  | .empty | .ret _ none => trivial
  | .expr e => e.within_of_forall fun _ => trivial
  | .block _ body => anyLaw_allowsAll body
  | .ifThen e yes => ⟨e.within_of_forall fun _ => trivial,anyLaw_allows yes⟩
  | .ifElse e yes no => ⟨e.within_of_forall fun _ => trivial,anyLaw_allows yes,anyLaw_allows no⟩
  | .loop e body => ⟨e.within_of_forall fun _ => trivial,anyLaw_allows body⟩
  | .ret _ (some e) => ⟨e.within_of_forall fun _ => trivial,fun _ _ _ _ _ => trivial⟩
theorem anyLaw_allowsAll : (ss : List Stmt) → anyLaw.allowsAll ss
  | [] => trivial
  | s::ss => ⟨anyLaw_allows s,fun _ => anyLaw_allowsAll ss⟩
end

theorem anyLaw_declares (x : Decl) : anyLaw.declares x := by
  cases x with
  | «variable» => trivial
  | function d => exact ⟨anyLaw_allowsAll d.body,fun _ => trivial⟩

end Lowering

/-- Every function that an accepted program defines has the form. -/
theorem ofSource_canonical {name source : String} {m : Module}
    (h : Module.ofSource name source = .ok m) {f : FuncId} (hf : f ∈ m.funcs)
    (hd : (m.func f).isDeclaration = false) : ∃ e, Canonical m f e := by
  obtain ⟨p,-,hl⟩ := Module.ofSource_eq_ok h
  obtain ⟨ns,xs,d,hs,rfl⟩ :=
    Lowering.sound_of_lower (fun _ _ => trivial) (fun x _ => Lowering.anyLaw_declares x) hl
  have hne : (d.module.func f).layout ≠ [] := fun hnil => by simp [Func.isDeclaration,hnil] at hd
  exact ⟨_,Lowering.canonical_of_sound hs hf hne⟩

theorem ofSource_canonical_search :
    let source := "int find(int a[], int n, int x) { int i; i = 0; while (i < n) { if (a[i] == x) return i; i = i + 1; } return 0 - 1; }"
    ∃ m f e, Module.ofSource "search" source = .ok m ∧ m.func? "find" = some f ∧
      (m.func f).layout.length = 8 ∧ Canonical m f e := by
  intro source
  obtain ⟨m,hm,hc⟩ := Module.exists_ofSource "search" source
    (fun m => (m.func? "find").any fun f => (m.func f).layout.length = 8) (by decide +kernel)
  obtain ⟨f,hf,hl⟩ := (Option.any_eq_true _ _).mp hc
  have hl : (m.func f).layout.length = 8 := of_decide_eq_true hl
  have hd : (m.func f).isDeclaration = false := by
    rw [Func.isDeclaration,List.isEmpty_eq_false_iff]
    intro hnil
    rw [hnil] at hl
    cases hl
  obtain ⟨e,he⟩ := ofSource_canonical hm (List.mem_of_find?_eq_some hf) hd
  exact ⟨m,f,e,hm,hf,hl,he⟩

end CMinusF
