import CMinusF.Proofs.Lowering.Expressions

/-! The code of statements. A statement after which nothing is reached leaves no block open, any
other leaves one. -/
namespace CMinusF
open List
variable {L : Law} {ns : Notes} {s : State} {f : FuncId} {α : Type} {ps : List BlockId} {yes : Stmt}

mutual
/-- Every way through the statement ends in a return. -/
def Stmt.returns : Stmt → Bool
  | .empty | .expr _ | .ifThen _ _ | .loop _ _ => false
  | .block _ body => Stmt.anyReturns body
  | .ifElse _ yes no => yes.returns && no.returns
  | .ret _ _ => true
def Stmt.anyReturns : List Stmt → Bool
  | [] => false
  | s::ss => s.returns || Stmt.anyReturns ss
end

mutual
/-- Conditions on the expressions and on the returned expressions of a statement, as far as they can
be reached. -/
def Stmt.Obeys (P R : Expr → Prop) : Stmt → Prop
  | .empty | .ret _ none => True
  | .expr e => P e
  | .block _ body => Stmt.allObey P R body
  | .ifThen e yes => P e ∧ yes.Obeys P R
  | .ifElse e yes no => P e ∧ yes.Obeys P R ∧ no.Obeys P R
  | .loop e body => P e ∧ body.Obeys P R
  | .ret _ (some e) => P e ∧ R e
def Stmt.allObey (P R : Expr → Prop) : List Stmt → Prop
  | [] => True
  | s::ss => s.Obeys P R ∧ (s.returns = false → Stmt.allObey P R ss)
end

namespace Lowering

def Law.returned (L : Law) (e : Expr) : Prop :=
  ∀ pos name args, e = .call pos name args → L.voidName name → L.voidReturn

abbrev Law.allows (L : Law) (st : Stmt) : Prop := st.Obeys (Expr.Within L.literal) L.returned
abbrev Law.allowsAll (L : Law) (ss : List Stmt) : Prop :=
  Stmt.allObey (Expr.Within L.literal) L.returned ss

section
variable {m m' : Module} {ns' ns'' : Notes} {c : Context} {t u : State} {v w : Operand} {ty : Ty}
  {b x z : BlockId} {xs : List BlockId}

theorem Laid.head_layout (h : Laid L m ns) (he : m.Listed ⟨f,0⟩) :
    (m.func f).layout.head? = some ⟨f,0⟩ := by
  have hlt : 0 < (m.func f).blocks.size := h.listed_iff.mp he
  rw [h.layout]
  obtain ⟨k,hk⟩ := Nat.exists_eq_succ_of_ne_zero (Nat.ne_of_gt hlt)
  rw [hk,range_succ_eq_map]
  rfl

theorem Continues.jump (h : Continues L m ns b m' ns' (x :: xs)) (hz : Edge m' ns' x z)
    (hr : ∀ i, (ns' z).role ≠ .checked i) (hx : (ns' x).role ≠ .report)
    (he : Entered m' x m'.instrTable.size) :
    Continues L m ns b (m'.br x z).1 ns' xs ∧ Grows m' ns' (m'.br x z).1 ns' ∧
      Entered (m'.br x z).1 z (m'.br x z).1.instrTable.size := by
  obtain ⟨hc,hp⟩ := Continues.branch h.built (h.isOpen mem_cons_self)
    ⟨.br hz fun i hi => absurd hi (hr i),fun hrole => absurd hrole hx,he⟩
    (show [Operand.block z].filterMap Module.blockOf? = [z] from rfl)
  exact ⟨h.trans hc,hc.grows,hc.built.entered (hp z mem_cons_self)⟩

theorem Ready.allocaAtEntry (h : Ready L c s ns) (ht : Storable ty) {Q : α → State → Prop}
    {f : InstrId → Build α} (hf : ∀ t, Step L s ns t ns →
      Place t.module t.module.instrTable.size c.func (.instr s.module.instrTable.size) ty →
      Ensures (f s.module.instrTable.size) t Q) : Ensures
        (edit (·.allocaAtEntry c.func ty) >>= f) s Q := by
  obtain ⟨m,b,dead⟩ := s
  have hlink := m.linked_allocaAtEntry (h.built.head_layout h.names.entry)
    (h.built.listed_iff.mp h.names.entry)
    (fun i hi => (h.built.member _ i hi).1) ty
  have hc := Continues.alloca h.built h.isOpen h.names.entry rfl ht hlink
    (h.built.mirror.allocaAtEntry c.func ty)
    (h.built.charted.allocaAtEntry c.func ty)
  refine hf ⟨(m.allocaAtEntry c.func ty).1,b,dead⟩ (h.step_of hc) ?_
  dsimp only
  generalize (m.allocaAtEntry c.func ty).1 = m1 at *
  exact .slot (by rw [hlink.size]; exact Nat.lt_succ_self _) (by rw [hlink.instr_new]; rfl)
    (by rw [hlink.instr_new]; rfl)
    (by rw [hlink.instr_new]; rfl) (by rw [hlink.instr_new]; rfl)

theorem storable_variableType (d : VariableDecl) :
    Storable (variableType d) ∧ ∀ t, variableType d ≠ .pointer t := by
  unfold variableType
  split
  · exact ⟨.array _ _,fun _ => Ty.noConfusion⟩
  · refine ⟨.scalar _,fun t => ?_⟩
    cases d.scalar <;> exact Ty.noConfusion

def SymbolicScope (m : Module) (f : FuncId) (scope : Scope) : Prop :=
  ∀ name x, find? name scope = some x → Symbolic m f x

theorem SymbolicScope.grow {scope : Scope} (h : SymbolicScope m f scope) (hg : Grows m ns m' ns') :
    SymbolicScope m' f scope := fun name x hx => (h name x hx).grow hg

theorem SymbolicScope.cons {scope : Scope} {name : String} {x : Symbol} (hx : Symbolic m f x)
    (h : SymbolicScope m f scope) : SymbolicScope m f ((name,x) :: scope) := by
  intro name' y hy
  rw [find?,lookup_cons] at hy
  split at hy
  · cases hy
    exact hx
  · exact h name' y hy

theorem Ready.declare (h : Ready L c s ns) (ds : List VariableDecl) {scope : Scope}
    (hsc : SymbolicScope s.module c.func scope) :
    Ensures (declare c scope ds) s fun scope' t => Step L s ns t ns ∧
    SymbolicScope t.module c.func scope' := by
  induction ds generalizing s scope with
  | nil => exact .pure ⟨.refl h,hsc⟩
  | cons d ds ih =>
    obtain ⟨hst,hnp⟩ := storable_variableType d
    refine h.allocaAtEntry hst fun t hs hp => .guard fun _ => ?_
    have hx : Symbolic t.module c.func ⟨.instr s.module.instrTable.size,variableType d⟩ :=
      ⟨hp,hst,fun ty hty => absurd hty (hnp ty)⟩
    exact .mono (ih (h.step hs) (.cons hx (hsc.grow hs.continues.grows))) fun scope' u hu =>
      ⟨hs.trans hu.1,hu.2⟩

theorem Ready.scope (h : Ready L c s ns) {scope : Scope}
    (hsc : SymbolicScope s.module c.func scope) :
    Ready L { c with scopes := scope :: c.scopes } s ns where
  built := h.built
  isOpen := h.isOpen
  func := h.func
  alive := h.alive
  role := h.role
  entered := h.entered
  names := {
    entry := h.names.entry
    result := h.names.result
    funcs := h.names.funcs
    voids := h.names.voids
    report := h.names.report
    symbols := fun name x hx => by
      rw [cons_append,findSome?_cons] at hx
      split at hx
      · rename_i y hy
        cases hx
        exact hsc name x hy
      · exact h.names.symbols name x hx }

/-- What a statement leaves: no open block if nothing is reached after it, or else one. -/
def Proceeds (L : Law) (s : State) (ns : Notes) (t : State) (ns' : Notes) : Prop :=
  if t.dead then Continues L s.module ns s.block t.module ns' [] else Step L s ns t ns'

theorem Proceeds.of_step (h : Step L s ns t ns') : Proceeds L s ns t ns' := by
  rw [Proceeds,h.alive]
  exact h

theorem Proceeds.step (h : Proceeds L s ns t ns') (hd : t.dead = false) : Step L s ns t ns' := by
  rw [Proceeds,hd] at h
  exact h

theorem Proceeds.ended (h : Proceeds L s ns t ns') (hd : t.dead = true) :
    Continues L s.module ns s.block t.module ns' [] := by
  rw [Proceeds,hd] at h
  exact h

theorem Step.proceeds (h : Step L s ns t ns') (h' : Proceeds L t ns' u ns'') :
    Proceeds L s ns u ns'' := by
  cases hd : u.dead with
  | true =>
    rw [Proceeds,hd]
    exact h.continues.trans (h'.ended hd)
  | false => exact .of_step (h.trans (h'.step hd))

theorem Ready.result_cases (h : Ready L c s ns) : (c.result = .void ∧ c.result.isVoid = true) ∨
    ∃ x, c.result = scalarType x ∧ c.result.isVoid = false := by
  rcases (h.built.signature c.func h.func_lt).result with hr | ⟨x,hr⟩
  · exact .inl ⟨h.names.result.trans hr,by rw [h.names.result,hr]; rfl⟩
  · exact .inr ⟨x,h.names.result.trans hr,by rw [h.names.result,hr]; exact scalarType_isVoid x⟩

theorem Ready.ret (h : Ready L c s ns) {o : Option Operand}
    (hf : Fits L s.module ns s.block s.module.instrTable.size .ret .void none o.toList) :
    Continues L s.module ns s.block (s.module.ret s.block o).1 ns [] :=
  .emit h.built h.isOpen (by decide) (by decide) (h.suits hf)

theorem Ready.returnStmt (h : Ready L c s ns) (pos : Position) (e : Option Expr)
    (hw : L.allows (.ret pos e)) :
    Ensures (returnStmt c pos e) s fun _ t => ∃ ns', Proceeds L s ns t ns' ∧ t.dead = true := by
  unfold Lowering.returnStmt
  cases e with
  | none =>
    refine .guard fun hvoid => .bind_emit_ ?_
    rcases h.result_cases with ⟨hr,-⟩ | ⟨x,-,hx⟩
    · have hf : Fits L s.module ns s.block s.module.instrTable.size .ret .void none
        (none : Option Operand).toList :=
        .retNone (by rw [h.func,← h.names.result]; exact hr)
      intro _ t ht
      cases ht
      exact ⟨ns,h.ret hf,rfl⟩
    · rw [hx] at hvoid
      exact absurd rfl hvoid
  | some e =>
    refine .guard fun hvoid => .bind (h.expr e hw.1) ?_
    rintro v s1 ⟨ns1,hs,ho⟩
    have h1 := h.step hs
    rcases h.result_cases with ⟨-,hx⟩ | ⟨x,hr,-⟩
    · exact absurd hx hvoid
    have hres : (s1.module.func s1.block.func).result = scalarType x := by
      rw [h1.func,← h1.names.result]
      exact hr
    rw [hr]
    rcases ho with ⟨y,hy⟩ | ⟨⟨pos',name,args,rfl,hname⟩,j,b,rfl,hj,hp,ha,hty⟩
    · refine .bind (h1.convert hy x) ?_
      rintro w s2 ⟨hs',hw⟩
      have h2 := h1.step hs'
      refine .bind_emit_ ?_
      have hf : Fits L s2.module ns1 s2.block s2.module.instrTable.size .ret .void none
        (some w).toList :=
        .ret (by rw [h2.func,← h2.names.result]; exact hr) hw
      intro _ t ht
      cases ht
      exact ⟨ns1,(hs.trans hs').continues.trans (h2.ret hf),rfl⟩
    · -- a call without a value is returned as it is
      have hconv : Lowering.convert (.instr j) (scalarType x) s1 = .ok (.instr j,s1) := by
        have hvt : s1.module.typeOf (.instr j) = .void := hty
        show (if scalarType x = .float ∧ s1.module.typeOf (.instr j) = .i32 then _
          else _ : Build Operand) s1 = _
        rw [hvt,if_neg (by simp),if_neg (by simp)]
        rfl
      refine .bind (fun a t ht => ?_ : Ensures (Lowering.convert (.instr j) (scalarType x)) s1
        fun a t => a = .instr j ∧ t = s1) ?_
      · rw [hconv] at ht
        cases ht
        exact ⟨rfl,rfl⟩
      rintro a t ⟨rfl,ht⟩
      rw [ht]
      refine .bind_emit_ ?_
      have hf : Fits L s1.module ns1 s1.block s1.module.instrTable.size .ret .void none
        (some (.instr j)).toList :=
        .retVoid (hw.2 pos' name args rfl hname) hj hp ha hty
      intro _ u hu
      cases hu
      exact ⟨ns1,hs.continues.trans (h1.ret hf),rfl⟩

theorem Ensures.bind_isDead {Q : α → State → Prop} {f : Bool → Build α}
    (h : Ensures (f s.dead) s Q) :
    Ensures (isDead >>= f) s Q := h

/-- A plain block directly below the present one, to which some branch leads. -/
structure IsBranch (c : Context) (s : State) (m : Module) (ns : Notes) (j : BlockId) : Prop where
  note : ns j = ⟨some s.block,.plain⟩
  func : j.func = c.func
  entered : Entered m j m.instrTable.size

theorem IsBranch.above (h : IsBranch c s m ns x) : Above ns s.block x :=
  .step (by rw [h.note]) .refl

theorem IsBranch.role (h : IsBranch c s m ns x) : (ns x).role ≠ .report := by
  rw [h.note]
  exact Role.noConfusion

theorem IsBranch.grow (h : IsBranch c s m ns x) (hg : Grows m ns m' ns') (hx : m.Listed x) :
    IsBranch c s m' ns' x :=
  ⟨(hg.notes x hx).trans h.note,h.func,hg.entered hg.full h.entered⟩

/-- An arm of a branch out of the present block of `s`, as far as it has been built; `ps` are open
besides. -/
structure Arm (L : Law) (c : Context) (s : State) (ns : Notes) (t : State) (ns' : Notes)
    (ps : List BlockId) : Prop where
  continues : Continues L s.module ns s.block t.module ns' (if t.dead then ps else t.block :: ps)
  above : t.dead = false → Above ns' s.block t.block
  role : t.dead = false → (ns' t.block).role ≠ .report
  func : t.dead = false → t.block.func = c.func
  entered : t.dead = false → Entered t.module t.block t.module.instrTable.size

/-- Blocks that wait for the present arm to end. -/
abbrev Waiting (c : Context) (s : State) (m : Module) (ns : Notes) (ps : List BlockId) : Prop :=
  ∀ p ∈ ps, IsBranch c s m ns p

theorem Continues.arm (hc : Continues L s.module ns s.block m' ns' (x :: ps))
    (hx : IsBranch c s m' ns' x) (hps : Waiting c s m' ns' ps)
    (hp : Proceeds L ⟨m',x,false⟩ ns' t ns'') :
    Arm L c s ns t ns'' ps ∧ Waiting c s t.module ns'' ps := by
  have hrest : Grows m' ns' t.module ns'' → Waiting c s t.module ns'' ps := fun hg p hm =>
    (hps p hm).grow hg (hc.isOpen (mem_cons_of_mem _ hm)).1
  cases hd : t.dead with
  | true =>
    have he := hp.ended hd
    refine ⟨⟨by rw [hd]; exact hc.trans he,fun h => ?_,fun h => ?_,fun h => ?_,fun h => ?_⟩,
      hrest he.grows⟩ <;>
      · rw [hd] at h
        cases h
  | false =>
    have hs := hp.step hd
    have hgrow := hs.continues.grows.above hc.built.tree (hc.isOpen mem_cons_self).1 hx.above
    refine ⟨⟨by rw [hd]; exact hc.trans hs.continues,fun _ => hgrow.trans hs.above,fun _ => hs.role,
      fun _ => ?_,fun _ => hs.entered⟩,
      hrest hs.continues.grows⟩
    exact (hs.continues.built.func_of_above hs.above
      (hs.continues.isOpen mem_cons_self).1).1.symm.trans hx.func

theorem Arm.jump (h : Arm L c s ns t ns' ps) (hd : t.dead = false) (hj : x ∈ ps)
    (hn : ns' x = ⟨some s.block,.plain⟩) (hf : x.func = c.func) :
    Continues L s.module ns s.block (t.module.br t.block x).1 ns' ps ∧
      Grows t.module ns' (t.module.br t.block x).1 ns' ∧
      IsBranch c s (t.module.br t.block x).1 ns' x := by
  have hc := h.continues
  rw [hd] at hc
  obtain ⟨hcont,hg,he⟩ :=
    hc.jump ⟨hf.trans (h.func hd).symm,(hc.isOpen (mem_cons_of_mem _ hj)).1,s.block,
    by rw [hn],h.above hd⟩
    (fun i => by rw [hn]; exact Role.noConfusion) (h.role hd) (h.entered hd)
  exact ⟨hcont,hg,hn,hf,he⟩

theorem Arm.join (h : Arm L c s ns t ns' ps) (hw : Waiting c s t.module ns' ps) (hj : x ∈ ps) :
    Ensures (Lowering.branchToJoin c (some x)) t fun o u => o = some x ∧
    Continues L s.module ns s.block u.module ns' ps ∧
      Waiting c s u.module ns' ps := by
  refine .bind_isDead ?_
  have hc := h.continues
  cases hd : t.dead with
  | true =>
    rw [hd] at hc
    exact .pure ⟨rfl,hc,hw⟩
  | false =>
    rw [hd] at hc
    obtain ⟨hcont,hg,-⟩ := h.jump hd hj (hw x hj).note (hw x hj).func
    exact .bind_pure
      (.bind_emit_ (.pure ⟨rfl,hcont,fun p hp => (hw p hp).grow hg
      (hc.isOpen (mem_cons_of_mem _ hp)).1⟩))

theorem Arm.makeJoin (hs : s.module.Listed s.block) (hf : s.block.func = c.func)
    (h : Arm L c s ns t ns' ps) (hw : Waiting c s t.module ns' ps) :
    Ensures (Lowering.branchToJoin c none) t fun o u =>
      (t.dead = true ∧ o = none ∧ Continues L s.module ns s.block u.module ns' ps ∧
        Waiting c s u.module ns' ps) ∨
        (t.dead = false ∧ ∃ j ns'', o = some j ∧
          Continues L s.module ns s.block u.module ns'' (j :: ps) ∧
          Waiting c s u.module ns'' (j :: ps)) := by
  refine .bind_isDead ?_
  have hc := h.continues
  cases hd : t.dead with
  | true =>
    rw [hd] at hc
    exact .pure (.inl ⟨rfl,rfl,hc,hw⟩)
  | false =>
    rw [hd] at hc
    refine .bind_newBlock (.bind_emit_ (.pure (.inr ⟨rfl,?_⟩)))
    have hopen := hc.isOpen mem_cons_self
    have hnew := Continues.block hc.built hopen "ifcont" (hc.grows.listed _ hs) hf .plain
    generalize hj : (⟨c.func,(t.module.func c.func).blocks.size⟩ : BlockId) = j at *
    generalize hn : Function.update ns' j ⟨some s.block,.plain⟩ = ns'' at *
    have harm : Arm L c s ns ⟨(t.module.addBlock c.func "ifcont").1,t.block,false⟩ ns''
        (j :: ps) := by
      refine ⟨hc.trans hnew,fun _ => hnew.grows.above hc.built.tree hopen.1 (h.above hd),
        fun _ => ?_,fun _ => h.func hd,fun _ => hnew.grows.entered hnew.grows.full (h.entered hd)⟩
      rw [hnew.grows.notes _ hopen.1]
      exact h.role hd
    obtain ⟨hcont,hg,hbr⟩ :=
      harm.jump rfl mem_cons_self (by rw [← hn,Function.update_self]) (hj ▸ rfl)
    refine ⟨j,ns'',rfl,hcont,forall_mem_cons.mpr ⟨hbr,fun p hp => ?_⟩⟩
    exact (hw p hp).grow (hnew.grows.trans hg) (hc.isOpen (mem_cons_of_mem _ hp)).1

theorem Continues.joined (hc : Continues L s.module ns s.block m' ns' [x])
    (hx : IsBranch c s m' ns' x) :
    Step L s ns ⟨m',x,false⟩ ns' :=
  ⟨hc,hx.above,rfl,hx.role,hx.entered⟩

theorem Ready.enterBranch (h : Ready L c s ns)
    (hc : Continues L s.module ns s.block m' ns' (x :: ps)) (hx : IsBranch c s m' ns' x) :
    Ready L c ⟨m',x,false⟩ ns' := h.enter hc mem_cons_self hx.func hx.role hx.entered

theorem Forked.branches {y : BlockId} (h : Forked L c s ns t ns' x y .plain .plain) :
    IsBranch c s t.module ns' x ∧ Waiting c s t.module ns' [y] :=
  ⟨⟨h.note_left,h.left,h.entered_left⟩,fun _ hp => mem_singleton.mp hp ▸
    ⟨h.note_right,h.right,h.entered_right⟩⟩

end

/-- What lowering a statement leaves, and whether anything is reached after it. -/
abbrev Lowers (L : Law) (c : Context) (x : Build Unit) (dead : Bool) : Prop :=
  ∀ s ns, Ready L c s ns → Ensures x s fun _ t => ∃ ns', Proceeds L s ns t ns' ∧ t.dead = dead

section
variable {c : Context} {e : Expr}

theorem lowers_ifThen {dead : Bool} (he : e.Within L.literal) (hy : Lowers L c (stmt c yes) dead) :
    Lowers L c (stmt c (.ifThen e yes)) false := by
  intro s ns h
  refine .bind (h.condition e he) ?_
  rintro v s1 ⟨ns1,hs1,hv⟩
  have h1 := h.step hs1
  refine h1.fork hv "then" "ifcont" .plain .plain (fun _ => Role.noConfusion)
    (fun _ => Role.noConfusion) ?_
  intro x y s2 ns2 hf
  obtain ⟨hx,hy'⟩ := hf.branches
  refine .bind_setBlock (.bind (hy _ ns2 (h1.enterBranch hf.continues hx)) ?_)
  rintro _ s3 ⟨ns3,hp,-⟩
  obtain ⟨harm,hwait⟩ := hf.continues.arm hx hy' hp
  refine .bind (harm.join hwait mem_cons_self) ?_
  rintro _ s4 ⟨-,hc,hwait⟩
  intro _ t ht
  cases ht
  exact ⟨ns3,.of_step (hs1.trans (hc.joined (hwait y mem_cons_self))),rfl⟩

theorem lowers_ifElse {no : Stmt} {dead dead' : Bool} (he : e.Within L.literal)
    (hy : Lowers L c (stmt c yes) dead) (hn : Lowers L c (stmt c no) dead') :
    Lowers L c (stmt c (.ifElse e yes no)) (dead && dead') := by
  intro s ns h
  refine .bind (h.condition e he) ?_
  rintro v s1 ⟨ns1,hs1,hv⟩
  have h1 := h.step hs1
  refine h1.fork hv "then" "else" .plain .plain (fun _ => Role.noConfusion)
    (fun _ => Role.noConfusion) ?_
  intro x y s2 ns2 hf
  obtain ⟨hx,hy'⟩ := hf.branches
  refine .bind_setBlock (.bind (hy _ ns2 (h1.enterBranch hf.continues hx)) ?_)
  rintro _ s3 ⟨ns3,hp,hd3⟩
  obtain ⟨harm,hwait⟩ := hf.continues.arm hx hy' hp
  refine .bind (harm.makeJoin h1.isOpen.1 h1.func hwait) ?_
  rintro o s4 (⟨hdead,rfl,hc,hwait⟩ | ⟨hdead,j,ns4,rfl,hc,hwait⟩)
  · have hyb := hwait y mem_cons_self
    refine .bind_setBlock (.bind (hn _ ns3 (h1.enterBranch hc hyb)) ?_)
    rintro _ s5 ⟨ns5,hp',hd5⟩
    obtain ⟨harm',hwait'⟩ := hc.arm hyb (fun p hp => absurd hp not_mem_nil) hp'
    refine .bind (harm'.makeJoin h1.isOpen.1 h1.func hwait') ?_
    rintro o s6 (⟨hdead',rfl,hc',-⟩ | ⟨hdead',j,ns6,rfl,hc',hrest⟩)
    · intro _ t ht
      cases ht
      refine ⟨ns5,hs1.proceeds (hc' : Proceeds L s1 ns1 ⟨s6.module,s6.block,true⟩ ns5),?_⟩
      rw [← hd3,← hd5,hdead,hdead']
      rfl
    · intro _ t ht
      cases ht
      refine ⟨ns6,.of_step (hs1.trans (hc'.joined (hrest j mem_cons_self))),?_⟩
      rw [← hd3,← hd5,hdead,hdead']
      rfl
  · have hyb := hwait y (mem_cons_of_mem _ mem_cons_self)
    have hc := hc.perm (List.Perm.swap y j [])
    refine .bind_setBlock (.bind (hn _ ns4 (h1.enterBranch hc hyb)) ?_)
    rintro _ s5 ⟨ns5,hp',hd5⟩
    obtain ⟨harm',hwait'⟩ :=
      hc.arm hyb (fun p hp => mem_singleton.mp hp ▸ hwait j mem_cons_self) hp'
    refine .bind (harm'.join hwait' mem_cons_self) ?_
    rintro _ s6 ⟨rfl,hc',hwait'⟩
    intro _ t ht
    cases ht
    refine ⟨ns5,.of_step (hs1.trans (hc'.joined (hwait' j mem_cons_self))),?_⟩
    rw [← hd3,hdead]
    rfl

theorem Ready.loopHead (h : Ready L c s ns) {head : BlockId}
    (hh : head = ⟨c.func,(s.module.func c.func).blocks.size⟩) :
    ∃ ns', ns' head = ⟨some s.block,.plain⟩ ∧
      Step L s ns ⟨(Module.br (s.module.addBlock c.func "loopcond").1 s.block head).1,head,
        false⟩ ns' := by
  have hnew := Continues.block h.built h.isOpen "loopcond" h.isOpen.1 h.func .plain
  rw [← hh] at hnew
  generalize hn : Function.update ns head ⟨some s.block,.plain⟩ = ns' at *
  have hb : ns' head = ⟨some s.block,.plain⟩ := by rw [← hn,Function.update_self]
  have harm : Arm L c s ns ⟨(s.module.addBlock c.func "loopcond").1,s.block,false⟩ ns' [head] := by
    refine ⟨hnew,fun _ => .refl,fun _ => ?_,fun _ => h.func,
      fun _ => hnew.grows.entered hnew.grows.full h.entered⟩
    rw [hnew.grows.notes _ h.isOpen.1]
    exact h.role
  obtain ⟨hc,-,hx⟩ := harm.jump rfl mem_cons_self hb (hh ▸ rfl)
  exact ⟨ns',hb,hc.joined hx⟩

theorem lowers_loop {body : Stmt} {dead : Bool} (he : e.Within L.literal)
    (hb : Lowers L c (stmt c body) dead) :
    Lowers L c (stmt c (.loop e body)) false := by
  intro s ns h
  refine .bind_newBlock (.bind_emit_ (.bind_setBlock ?_))
  generalize hh : (⟨c.func,(s.module.func c.func).blocks.size⟩ : BlockId) = head
  obtain ⟨ns1,hhead,hs1⟩ := h.loopHead hh.symm
  have h1 := h.step hs1
  refine .bind (h1.condition e he) ?_
  rintro v s2 ⟨ns2,hs2,hv⟩
  have h2 := h1.step hs2
  refine h2.fork hv "loopbody" "afterloop" .plain .plain (fun _ => Role.noConfusion)
    (fun _ => Role.noConfusion) ?_
  intro x y s3 ns3 hf
  obtain ⟨hx,hy⟩ := hf.branches
  refine .bind_setBlock (.bind (hb _ ns3 (h2.enterBranch hf.continues hx)) ?_)
  rintro _ s4 ⟨ns4,hp,-⟩
  obtain ⟨harm,hwait⟩ := hf.continues.arm hx hy hp
  have hyb := hwait y mem_cons_self
  refine .bind_isDead ?_
  have hfinal : ∀ {m}, Continues L s2.module ns2 s2.block m ns4 [y] → IsBranch c s2 m ns4 y →
      ∀ t : State, t = ⟨m,y,false⟩ → ∃ ns', Proceeds L s ns t ns' ∧ t.dead = false := by
    rintro m hc hy t rfl
    exact ⟨ns4,.of_step ((hs1.trans hs2).trans (hc.joined hy)),rfl⟩
  have hc := harm.continues
  cases hd : s4.dead with
  | true =>
    rw [hd] at hc
    intro _ t ht
    cases ht
    exact hfinal hc hyb _ rfl
  | false =>
    rw [hd] at hc
    -- back to the head: it stands below the block before the loop, as the body does
    have hlisted := h1.isOpen.1
    have hgrow := hs2.continues.grows.trans hc.grows
    have hnote : ns4 head = ⟨some s.block,.plain⟩ := (hgrow.notes head hlisted).trans hhead
    have habove : Above ns4 s.block s4.block :=
      (Above.step (by rw [hnote]) .refl).trans
        ((hc.grows.above hs2.continues.built.tree h2.isOpen.1 hs2.above).trans (harm.above hd))
    have hedge : Edge s4.module ns4 s4.block head :=
      ⟨h1.func.trans (harm.func hd).symm,hgrow.listed head hlisted,s.block,by rw [hnote],habove⟩
    obtain ⟨hback,hg,-⟩ := hc.jump hedge (fun i => by rw [hnote]; exact Role.noConfusion)
      (harm.role hd) (harm.entered hd)
    intro _ t ht
    cases ht
    exact hfinal hback (hyb.grow hg (hc.isOpen (mem_cons_of_mem _ mem_cons_self)).1) _ rfl

theorem lowers_block {ds : List VariableDecl} {body : List Stmt} {dead : Bool}
    (hb : ∀ scope, Lowers L { c with scopes := scope :: c.scopes }
      (stmts { c with scopes := scope :: c.scopes } body) dead) :
    Lowers L c (stmt c (.block ds body)) dead := by
  intro s ns h
  unfold stmt
  have hnil : SymbolicScope s.module c.func [] := fun _ _ hx => by simp [find?] at hx
  refine .bind (h.declare ds hnil) ?_
  rintro scope t ⟨hs,hsc⟩
  refine .mono (hb scope t ns ((h.step hs).scope hsc)) ?_
  rintro _ u ⟨ns',hp,hd⟩
  exact ⟨ns',hs.proceeds hp,hd⟩

end

mutual
theorem lowers_stmt (c : Context) : (st : Stmt) → L.allows st → Lowers L c (stmt c st) st.returns
  | .empty, _ => fun s ns h => by
    unfold stmt
    exact .pure ⟨ns,.of_step (.refl h),h.alive⟩
  | .expr e, hw => fun s ns h => by
    unfold stmt
    refine .bind (h.expr e hw) ?_
    rintro _ t ⟨ns',hs,-⟩
    exact .pure ⟨ns',.of_step hs,hs.alive⟩
  | .block ds body, hw => lowers_block fun _ => lowers_stmts _ body hw
  | .ifThen e yes, hw => lowers_ifThen hw.1 (lowers_stmt c yes hw.2)
  | .ifElse e yes no, hw => lowers_ifElse hw.1 (lowers_stmt c yes hw.2.1) (lowers_stmt c no hw.2.2)
  | .loop e body, hw => lowers_loop hw.1 (lowers_stmt c body hw.2)
  | .ret pos e, hw => fun s ns h => by
    unfold stmt
    exact h.returnStmt pos e hw
theorem lowers_stmts (c : Context) : (ss : List Stmt) → L.allowsAll ss →
    Lowers L c (stmts c ss) (Stmt.anyReturns ss)
  | [], _ => fun s ns h => by
    unfold stmts
    exact .pure ⟨ns,.of_step (.refl h),h.alive⟩
  | st::ss, hw => fun s ns h => by
    unfold stmts
    refine .bind_isDead ?_
    rw [h.alive,if_neg Bool.false_ne_true]
    refine .bind (lowers_stmt c st hw.1 s ns h) ?_
    rintro _ t ⟨ns',hp,hd⟩
    unfold Stmt.anyReturns
    cases hr : st.returns with
    | true =>
      -- the rest is not built
      rw [hr] at hd
      cases ss with
      | nil =>
        unfold stmts
        exact .pure ⟨ns',hp,hd⟩
      | cons st' ss =>
        unfold stmts
        refine .bind_isDead ?_
        rw [hd,if_pos rfl]
        exact .pure ⟨ns',hp,hd⟩
    | false =>
      rw [hr] at hd
      have hs := hp.step hd
      refine .mono (lowers_stmts c ss (hw.2 hr) t ns' (h.step hs)) ?_
      rintro _ u ⟨ns'',hp',hd'⟩
      exact ⟨ns'',hs.proceeds hp',hd'⟩
end

end Lowering
end CMinusF
