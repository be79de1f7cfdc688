import CMinusF.FrontEnd
import CMinusF.Proofs.Lowering.Programs

/-! The code of a program passes the check of its shape, unless a function returns the call of one
that gives no value. -/
namespace CMinusF
open List
variable {m : Module} {i : InstrId} {v p : Operand} {is : List InstrId} {P : Int → Prop}
  {P' R R' : Expr → Prop}

namespace Lowering

section
variable {L : Law} {ns : Notes} {b : BlockId} {n : InstrId} {op : Opcode} {t : Ty}
  {object : Option Ty} {vs : List Operand}

/-- What instruction `n` in block `b` may name; only a return may name what gives no value. -/
def Readable (L : Law) (m : Module) (ns : Notes) (b : BlockId) (n : InstrId) : Operand → Prop
  | .instr j => j < n ∧ ((m.code.instr j).type.isVoid = false ∨ L.voidReturn) ∧
      ∃ c, (m.code.instr j).parent = some c ∧ Above ns c b
  | .arg f _ => f = b.func
  | .block c => c.func = b.func
  | .hole => False
  | _ => True

theorem Has.readable (h : Has L m ns b n v t) : Readable L m ns b n v := by
  cases h with
  | int => trivial
  | float => trivial
  | instr hj hp ha ht hv => exact ⟨hj,.inl (by rw [ht]; exact hv),_,hp,ha⟩

theorem IsZero.readable (h : IsZero m v) : Readable L m ns b n v := by
  obtain ⟨c,rfl,-⟩ := h
  trivial

theorem Place.readable (hm : Laid L m ns) (hb : m.Listed b) (h : Place m n b.func v t) :
    Readable L m ns b n v := by
  cases h with
  | global => trivial
  | slot hj hp _ ht => exact ⟨hj,.inl (by rw [ht]; rfl),_,hp,hm.above_entry hb⟩

theorem Passes.readable (h : Passes L m ns b n v t) : Readable L m ns b n v := by
  cases h with
  | value hv => exact hv.readable
  | array hv _ => exact hv.readable

theorem Fits.readable (hm : Laid L m ns) (hb : m.Listed b) (h : Fits L m ns b n op t object vs) :
    ∀ v ∈ vs, Readable L m ns b n v := by
  cases h with
  | int hx hy => simpa using ⟨hx.readable,hy.readable⟩
  | float hx hy => simpa using ⟨hx.readable,hy.readable⟩
  | icmp hx hy => simpa using ⟨hx.readable,hy.readable⟩
  | fcmp hx hy => simpa using ⟨hx.readable,hy.readable⟩
  | zext hx => simpa using hx.readable
  | fptosi hx => simpa using hx.readable
  | sitofp hx => simpa using hx.readable
  | alloca => exact fun _ h => absurd h not_mem_nil
  | loadVariable hp => simpa using hp.readable hm hb
  | loadReference hp _ => simpa using hp.readable hm hb
  | loadElement hp _ => simpa using hp.readable
  | storeVariable hv hp => simpa using ⟨hv.readable,hp.readable hm hb⟩
  | storeParam _ _ hp => simpa using ⟨(rfl : Readable L m ns b n (.arg b.func _)),hp.readable hm hb⟩
  | storeElement hv hp _ => simpa using ⟨hv.readable,hp.readable⟩
  | gepElement hp hz hv => simpa using ⟨hp.readable hm hb,hz.readable,hv.readable⟩
  | gepFirst hp hz hz' => simpa using ⟨hp.readable hm hb,hz.readable,hz'.readable⟩
  | gepOffset hp _ hv => simpa using ⟨hp.readable,hv.readable⟩
  | call _ hvs =>
    refine forall_mem_cons.mpr ⟨trivial,fun v hv => ?_⟩
    obtain ⟨t,ht⟩ := exists_of_forall₂ hvs hv
    exact ht.readable
  | retNone => exact fun _ h => absurd h not_mem_nil
  | ret _ hv => simpa using hv.readable
  | retVoid hv hj hp ha _ => exact forall_mem_singleton.mpr ⟨hj,.inr hv,_,hp,ha⟩
  | br he => exact forall_mem_singleton.mpr he.func
  | condBr hv hc hd =>
    simpa using ⟨hv.readable,(hc.func : Readable L m ns b n (.block _)),
      (hd.func : Readable L m ns b n (.block _))⟩

section
variable (h : Fits L m ns b n op t object vs)
include h

theorem Fits.op_ne_phi : op ≠ .phi := by
  cases h <;> exact Opcode.noConfusion

/-! What the opcode tells. -/

theorem Fits.alloca_inv (ho : op = .alloca) : b.number = 0 ∧ ∃ t', t = .pointer t' := by
  subst ho
  cases h with
  | alloca hb _ => exact ⟨hb,_,rfl⟩

theorem Fits.alloca_operands (ho : op = .alloca) : vs = [] := by
  subst ho
  cases h
  rfl

theorem Fits.br_inv (ho : op = .br) : t = .void := by
  subst ho
  cases h <;> rfl

theorem Fits.icmp_inv {r : Relation} (ho : op = .icmp r) :
    t = .i1 ∧ ∃ x y, vs = [x,y] ∧ Has L m ns b n x .i32 ∧ Has L m ns b n y .i32 := by
  subst ho
  cases h with
  | icmp hx hy => exact ⟨rfl,_,_,rfl,hx,hy⟩

theorem Fits.load_inv (ho : op = .load) (hv : vs = [p]) :
    (∃ t', Place m n b.func p t') ∨ ∃ j, p = .instr j ∧ (m.code.instr j).op = .gep := by
  subst ho hv
  cases h with
  | loadVariable hp => exact .inl ⟨_,hp⟩
  | loadReference hp _ => exact .inl ⟨_,hp⟩
  | loadElement _ hj => exact .inr ⟨_,rfl,hj⟩

theorem Fits.store_inv (ho : op = .store) (hv : vs = [v,p]) :
    (∃ t', Place m n b.func p t') ∨ ∃ j, p = .instr j ∧ (m.code.instr j).op = .gep := by
  subst ho hv
  cases h with
  | storeVariable _ hp => exact .inl ⟨_,hp⟩
  | storeParam _ _ hp => exact .inl ⟨_,hp⟩
  | storeElement _ _ hj => exact .inr ⟨_,rfl,hj⟩

end

theorem Fits.call_type (hm : Laid L m ns) (h : Fits L m ns b n op t object vs) (ho : op = .call) :
    t = .void ∨ ∃ s, t = scalarType s := by
  subst ho
  cases h with
  | call hg _ => exact (hm.signature _ hg).result

/-! The order of a block. -/

variable {j : InstrId} {pre r : List InstrId}

theorem Laid.work_split (hs : (m.block b).instrs = pre ++ i :: r) (hi : (m.instr i).op ≠ .alloca) :
    ∃ w, pre = m.heads b ++ w ∧ m.work b = w ++ i :: r := by
  rw [← m.heads_append_work] at hs
  rcases append_eq_append_iff.mp hs with ⟨w,hw,hw'⟩ | ⟨w,hw,hw'⟩
  · exact ⟨w,hw,hw'⟩
  · cases w with
    | nil => exact ⟨[],by simpa using hw.symm,hw'.symm⟩
    | cons k w =>
      cases hw'
      exact absurd (Module.op_of_mem_heads (hw ▸ mem_append_right _ mem_cons_self)) hi

theorem Laid.mem_before (hm : Laid L m ns) (hs : (m.block b).instrs = pre ++ i :: r)
    (hi : (m.instr i).op ≠ .alloca) (hj : j ∈ (m.block b).instrs) (hlt : j < i) : j ∈ pre := by
  obtain ⟨w,hpre,hw⟩ := Laid.work_split hs hi
  rw [hs] at hj
  rcases mem_append.mp hj with hj | hj
  · exact hj
  · have hsort := hm.work b
    rw [hw,pairwise_append] at hsort
    rcases mem_cons.mp hj with rfl | hj
    · exact absurd hlt (Nat.lt_irrefl _)
    · exact absurd hlt (Nat.lt_asymm (rel_of_pairwise_cons hsort.2.1 hj))

/-- Instructions other than allocas are numbered in the order of the block. -/
theorem Laid.lt_of_mem_before (hm : Laid L m ns) (hs : (m.block b).instrs = pre ++ i :: r)
    (hj : j ∈ pre) (hop : (m.instr j).op ≠ .alloca) : j < i := by
  obtain ⟨p,q,rfl⟩ := append_of_mem hj
  rw [append_assoc] at hs
  obtain ⟨w,-,hw⟩ := Laid.work_split hs hop
  have hsort := hm.work b
  rw [hw,pairwise_append] at hsort
  exact rel_of_pairwise_cons hsort.2.1 (mem_append_right _ mem_cons_self)

variable {f : FuncId}

theorem Laid.operandDefect?_eq_none (hm : Laid L m ns) (hL : ¬ L.voidReturn) (hb : m.Listed b)
    (hi : i ∈ (m.block b).instrs) :
    ∀ v ∈ m.operands i, m.operandDefect? b.func b i v = none := by
  intro v hv
  obtain ⟨hlt,hp⟩ := hm.member b i hi
  have hr := (hm.fits i hlt b hp).readable hm hb v hv
  cases v with
  | instr j =>
    obtain ⟨hj,hvoid,c,hc,ha⟩ := hr
    have hfunc := (hm.func_of_above ha hb).1
    have hparent : (m.instr j).parent = some c := hc
    have htype : (m.instr j).type.isVoid = false := hvoid.resolve_right hL
    simp [Module.operandDefect?,hparent,htype,hfunc]
  | arg g k => exact if_neg (not_not.mpr hr)
  | block c => exact if_neg (not_not.mpr hr)
  | hole => exact hr.elim
  | literal c => rfl
  | global g => rfl
  | func g => rfl

theorem Laid.uses_eq_nil (hm : Laid L m ns) (hL : ¬ L.voidReturn)
    (hv : (m.code.instr i).type.isVoid = true) : (m.instr i).uses = [] := by
  apply eq_nil_iff_forall_not_mem.mpr
  intro u hu
  have hcount : (m.uses (.instr i)).count u = (m.operands u).count (.instr i) :=
    hm.mirror _ (by simp) u
  have hmem : Operand.instr i ∈ m.operands u :=
    count_pos_iff.mp (hcount ▸ count_pos_iff.mpr hu)
  have hlt : u < m.instrTable.size := by
    by_contra hge
    have hempty : m.operands u = [] := by
      rw [Module.operands,Module.instr,m.instrTable.get_of_size_le (Nat.le_of_not_lt hge)]
      rfl
    rw [hempty] at hmem
    cases hmem
  obtain ⟨c,hc,hp,-⟩ := hm.linked u hlt
  obtain ⟨-,hvoid,-⟩ := (hm.fits u hlt c hp).readable hm hc _ hmem
  rw [hv] at hvoid
  exact hvoid.elim Bool.noConfusion hL

theorem Laid.ends (hm : Laid L m ns) (hb : m.Listed b) (hc : ¬ Open m b) :
    ∃ is t, (m.block b).instrs = is ++ [t] ∧
    (m.instr t).op.isTerminator = true ∧ ∀ i ∈ is, (m.instr i).op.isTerminator = false := by
  have hex : ∃ i ∈ m.work b, (m.instr i).op.isTerminator = true := by
    by_contra hno
    refine hc ⟨hb,fun i hi => ?_⟩
    by_contra ht
    exact hno ⟨i,hi,by simpa using ht⟩
  obtain ⟨i,hi,ht⟩ := hex
  have hne : m.work b ≠ [] := ne_nil_of_mem hi
  have hsplit : m.work b = (m.work b).dropLast ++ [(m.work b).getLast hne] :=
    (dropLast_append_getLast hne).symm
  refine ⟨m.heads b ++ (m.work b).dropLast,(m.work b).getLast hne,?_,?_,fun j hj => ?_⟩
  · rw [append_assoc,← hsplit,m.heads_append_work]
  · rw [hsplit] at hi
    rcases mem_append.mp hi with hi | hi
    · rw [hm.last b i hi] at ht
      cases ht
    · rwa [← mem_singleton.mp hi]
  · rcases mem_append.mp hj with hj | hj
    · rw [Module.op_of_mem_heads hj]
      rfl
    · exact hm.last b j hj

theorem Built.verify (hm : Built L m ns) (hL : ¬ L.voidReturn) (hclosed : ∀ b, ¬ Open m b)
    (f : FuncId) : m.verify f = .ok () := by
  refine Module.verify_of_blockChecked fun b hb => ?_
  have hf : b.func = f := by
    rw [hm.layout] at hb
    obtain ⟨k,-,rfl⟩ := mem_map.mp hb
    rfl
  subst hf
  refine ⟨rfl,fun pre i post hs => ?_,?_,fun c hc => (hm.charted.preds b c).mpr hc,
    fun c hc => (hm.charted.preds c b).mp hc⟩
  · have hi : i ∈ (m.block b).instrs := by simp [hs]
    obtain ⟨hlt,hp⟩ := hm.member b i hi
    have hphi : (m.instr i).op ≠ .phi := (hm.fits i hlt b hp).op_ne_phi
    exact ⟨hp,hm.charted.last b pre i post hs,fun h => absurd h hphi,fun h => absurd h hphi,
      hm.uses_eq_nil hL,hm.operandDefect?_eq_none hL hb hi⟩
  · obtain ⟨is,t,hi,ht,-⟩ := hm.toLaid.ends hb (hclosed b)
    have hterm := hm.charted.terminator?_iff.mpr ⟨hi ▸ mem_append_right is mem_cons_self,ht⟩
    refine ⟨is,t,hi,ht,fun c => ?_⟩
    rw [hm.charted.succs,hm.charted.branches_iff,hterm]
    simp

end
end Lowering

/-! Conditions on syntax trees. -/

mutual
theorem Expr.within_of_forall (hP : ∀ k, P k) : (e : Expr) → e.Within P
  | .integer k => hP k
  | .decimal _ | .variable _ _ => trivial
  | .element _ _ i => i.within_of_forall hP
  | .assign _ _ v => v.within_of_forall hP
  | .assignElement _ _ i v => ⟨i.within_of_forall hP,v.within_of_forall hP⟩
  | .binary _ l r => ⟨l.within_of_forall hP,r.within_of_forall hP⟩
  | .call _ _ args => Expr.allWithin_of_forall hP args
theorem Expr.allWithin_of_forall (hP : ∀ k, P k) : (es : List Expr) → Expr.allWithin P es
  | [] => trivial
  | e::es => ⟨e.within_of_forall hP,Expr.allWithin_of_forall hP es⟩
end

mutual
theorem Stmt.Obeys.mono {P : Expr → Prop} (hP : ∀ e, P e → P' e) (hR : ∀ e, R e → R' e) :
    (st : Stmt) → st.Obeys P R → st.Obeys P' R'
  | .empty, _ | .ret _ none, _ => trivial
  | .expr e, h => hP e h
  | .block _ body, h => Stmt.allObey_mono hP hR body h
  | .ifThen e yes, h => ⟨hP e h.1,Stmt.Obeys.mono hP hR yes h.2⟩
  | .ifElse e yes no, h => ⟨hP e h.1,Stmt.Obeys.mono hP hR yes h.2.1,Stmt.Obeys.mono hP hR no h.2.2⟩
  | .loop e body, h => ⟨hP e h.1,Stmt.Obeys.mono hP hR body h.2⟩
  | .ret _ (some e), h => ⟨hP e h.1,hR e h.2⟩
theorem Stmt.allObey_mono {P : Expr → Prop} (hP : ∀ e, P e → P' e) (hR : ∀ e, R e → R' e) :
    (ss : List Stmt) → Stmt.allObey P R ss → Stmt.allObey P' R' ss
  | [], _ => trivial
  | s::ss, h => ⟨Stmt.Obeys.mono hP hR s h.1,fun hr => Stmt.allObey_mono hP hR ss (h.2 hr)⟩
end

mutual
instance Stmt.decidableObeys {P R : Expr → Prop} [DecidablePred P] [DecidablePred R] :
    (st : Stmt) → Decidable (st.Obeys P R)
  | .empty | .ret _ none => .isTrue trivial
  | .expr e => inferInstanceAs (Decidable (P e))
  | .block _ body => Stmt.decidableAllObey body
  | .ifThen e yes => @instDecidableAnd (P e) _ _ (Stmt.decidableObeys yes)
  | .ifElse e yes no =>
    @instDecidableAnd (P e) _ _ (@instDecidableAnd _ _ (Stmt.decidableObeys yes)
      (Stmt.decidableObeys no))
  | .loop e body => @instDecidableAnd (P e) _ _ (Stmt.decidableObeys body)
  | .ret _ (some e) => inferInstanceAs (Decidable (P e ∧ R e))
instance Stmt.decidableAllObey {P R : Expr → Prop} [DecidablePred P] [DecidablePred R] :
    (ss : List Stmt) → Decidable (Stmt.allObey P R ss)
  | [] => .isTrue trivial
  | s::ss =>
    have := Stmt.decidableAllObey (P := P) (R := R) ss
    @instDecidableAnd _ _ (Stmt.decidableObeys s)
      (inferInstanceAs (Decidable (s.returns = false → Stmt.allObey P R ss)))
end

/-- The function that an expression calls, if it is a call. -/
def Expr.callee? : Expr → Option String
  | .call _ name _ => some name
  | _ => none

def Decl.voidName? : Decl → Option String
  | .function d => if d.result.isNone then some d.name else none
  | .variable _ => none

/-- The functions of a program that give no value. -/
def Program.voidNames (p : Program) : List String :=
  ((Builtin.all.filter (·.result.isVoid)).map Builtin.name) ++ p.decls.filterMap Decl.voidName?

/-- No return that can be reached gives the call of one of the functions. -/
def Decl.ReturnsValues (voids : List String) : Decl → Prop
  | .variable _ => True
  | .function d => Stmt.allObey (fun _ => True) (fun e => ∀ name ∈ e.callee?, name ∉ voids) d.body

instance (voids : List String) : (x : Decl) → Decidable (x.ReturnsValues voids)
  | .variable _ => .isTrue trivial
  | .function d => inferInstanceAs (Decidable (Stmt.allObey _ _ d.body))

/-- No return that can be reached gives the call of a function without a value. -/
def Program.ReturnsValues (p : Program) : Prop := ∀ x ∈ p.decls, x.ReturnsValues p.voidNames

instance (p : Program) : Decidable p.ReturnsValues := inferInstanceAs (Decidable (∀ x ∈ p.decls, _))

namespace Lowering

/-- Any integers, and no return of a call without a value. -/
def valuedLaw (p : Program) : Law where
  literal _ := True
  zero := trivial
  voidName name := name ∈ p.voidNames
  voidReturn := False

theorem builtins_valuedLaw (p : Program) : (valuedLaw p).builtins := by
  intro x hx
  refine mem_append_left _ (mem_map_of_mem (mem_filter.mpr ⟨?_,by rw [hx]; rfl⟩))
  cases x <;> decide

theorem declares_valuedLaw {p : Program} (hp : p.ReturnsValues) :
    ∀ x ∈ p.decls, (valuedLaw p).declares x := by
  intro x hx
  cases x with
  | «variable» d => trivial
  | function d =>
    refine ⟨Stmt.allObey_mono (fun e _ => e.within_of_forall fun _ => trivial)
      (fun e he => ?_) d.body (hp _ hx),fun hr => ?_⟩
    · rintro pos name args rfl hname
      exact he name rfl hname
    · refine mem_append_right _ (mem_filterMap.mpr ⟨_,hx,?_⟩)
      rw [Decl.voidName?,hr]
      rfl

end Lowering

theorem Module.ofSource_eq_ok {name source : String} (h : Module.ofSource name source = .ok m) :
    ∃ p, Program.parse name source = .ok p ∧ p.lower (.empty name) = .ok m := by
  unfold Module.ofSource Module.addSource at h
  cases hp : Program.parse (empty name).name source with
  | error e =>
    rw [hp] at h
    cases h
  | ok p =>
    rw [hp] at h
    dsimp only at h
    refine ⟨p,hp,?_⟩
    split at h
    · cases h
    · cases h
      assumption

theorem Module.exists_ofSource (name source : String) (P : Module → Bool)
    (h : (Module.ofSource name source).toOption.any P = true) :
    ∃ m, Module.ofSource name source = .ok m ∧ P m = true := by
  cases hm : Module.ofSource name source with
  | error e =>
    rw [hm] at h
    cases h
  | ok m =>
    rw [hm] at h
    exact ⟨m,rfl,h⟩

/-- An accepted program passes the check unless a return that can be reached gives the call of a
function without a value. -/
theorem verify_of_returnsValues {name source : String} {m : Module}
    (h : Module.ofSource name source = .ok m)
    (hv : ∀ p, Program.parse name source = .ok p → p.ReturnsValues) :
    ∀ f ∈ m.funcs, m.verify f = .ok () := by
  obtain ⟨p,hp,hl⟩ := Module.ofSource_eq_ok h
  obtain ⟨ns,hb,hclosed⟩ :=
    Lowering.built_of_lower (Lowering.builtins_valuedLaw p)
    (Lowering.declares_valuedLaw (hv p hp)) hl
  exact fun f _ => hb.verify id hclosed f

theorem verify_of_returnsValues_choice :
    let source := "void g(void) { ; } int main(void) { int a[2]; if (a[input()]) return 1; else g(); }"
    ∃ m, Module.ofSource "choice" source = .ok m ∧ (m.func? "main").isSome = true ∧
      ∀ f ∈ m.funcs, m.verify f = .ok () := by
  intro source
  obtain ⟨m,hm,hmain⟩ := Module.exists_ofSource "choice" source (fun m => (m.func? "main").isSome)
    (by decide +kernel)
  refine ⟨m,hm,hmain,verify_of_returnsValues hm fun p hp => ?_⟩
  have hvalues : (Program.parse "choice" source).toOption.all
      (fun p => decide p.ReturnsValues) = true := by
    decide +kernel
  rw [hp] at hvalues
  exact of_decide_eq_true hvalues

theorem void_return_defective :
    ∃ m f, Module.ofSource "m" "void g(void){} int main(void){return g();}" = .ok m ∧
      m.func? "main" = some f ∧
      ∃ i, m.funcDefect? f = some (i,.voidUsed) ∧ m.verify f ≠ .ok () := by
  obtain ⟨m,hm,hd⟩ := Module.exists_ofSource "m" "void g(void){} int main(void){return g();}"
    (fun m => (m.func? "main").any fun f => (m.funcDefect? f).any fun d => d.2 = .voidUsed)
      (by decide +kernel)
  obtain ⟨f,hf,hd⟩ := (Option.any_eq_true _ _).mp hd
  obtain ⟨⟨i,d⟩,hfound,hd⟩ := (Option.any_eq_true _ _).mp hd
  obtain rfl : d = .voidUsed := of_decide_eq_true hd
  refine ⟨m,f,hm,hf,i,hfound,fun hv => ?_⟩
  rw [Module.verify_eq_ok_iff.mp hv] at hfound
  cases hfound

end CMinusF
