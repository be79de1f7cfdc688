import CMinusF.Proofs.Lowering.Emission

/-! The code of expressions. -/
namespace CMinusF
open List

mutual
def Expr.Within (P : Int → Prop) : Expr → Prop
  | .integer n => P n
  | .decimal _ | .variable _ _ => True
  | .element _ _ i => i.Within P
  | .assign _ _ v => v.Within P
  | .assignElement _ _ i v => i.Within P ∧ v.Within P
  | .binary _ l r => l.Within P ∧ r.Within P
  | .call _ _ args => Expr.allWithin P args
def Expr.allWithin (P : Int → Prop) : List Expr → Prop
  | [] => True
  | e::es => e.Within P ∧ Expr.allWithin P es
end

namespace Lowering
variable {α : Type} {s t : State} {v p : Operand} {b : BlockId} {f : Unit → Build α}
  {k : Module → BlockId → Module × InstrId} {c : Context} {L : Law} {m : Module}
    {ns ns' : Notes} {ty : Ty}
  {n : InstrId} {op : Opcode} {vs : List Operand} {x : Scalar} {e : Expr}

/-! Runs that succeed. -/

/-- What holds of the result and the state whenever code has been built. -/
def Ensures {α : Type} (x : Build α) (s : State) (Q : α → State → Prop) : Prop :=
  ∀ a t, x s = .ok (a,t) → Q a t

namespace Ensures
variable {β : Type} {Q : α → State → Prop}

theorem pure {a : α} (h : Q a s) : Ensures (Pure.pure a) s Q := by
  intro b t hx
  cases hx
  exact h

theorem bind {x : Build β} {f : β → Build α} {P : β → State → Prop} (hx : Ensures x s P)
    (hf : ∀ b t, P b t → Ensures (f b) t Q) : Ensures (x >>= f) s Q := by
  intro a t h
  cases hxs : x s with
  | error e =>
    have : (x >>= f) s = .error e := by simp only [Bind.bind,StateT.bind,Except.bind,hxs]
    rw [this] at h
    cases h
  | ok r =>
    have : (x >>= f) s = f r.1 r.2 := by simp only [Bind.bind,StateT.bind,Except.bind,hxs]
    rw [this] at h
    exact hf r.1 r.2 (hx r.1 r.2 hxs) a t h

theorem fail (pos : Option Position) (cause : LoweringCause) :
    Ensures (Lowering.fail pos cause) s Q := by
  intro a t h
  cases h

theorem mono {x : Build α} {P : α → State → Prop} (hx : Ensures x s P) (h : ∀ a t, P a t → Q a t) :
    Ensures x s Q :=
  fun a t ht => h a t (hx a t ht)

theorem bind_pure {a : β} {f : β → Build α} (h : Ensures (f a) s Q) :
    Ensures (Pure.pure a >>= f) s Q := h

theorem bind_typeOf {f : Ty → Build α} (h : Ensures (f (s.module.typeOf v)) s Q) :
    Ensures (Lowering.typeOf v >>= f) s Q := h

theorem bind_setBlock (h : Ensures (f ()) ⟨s.module,b,false⟩ Q) :
    Ensures (Lowering.setBlock b >>= f) s Q := h

theorem bind_emit_
    (h : Ensures (f ()) ⟨(k s.module s.block).1,s.block,s.dead⟩ Q) :
    Ensures (Lowering.emit_ k >>= f) s Q := h

theorem bind_newBlock {hint : String} {f : BlockId → Build α}
    (h : Ensures (f ⟨c.func,(s.module.func c.func).blocks.size⟩)
      ⟨(s.module.addBlock c.func hint).1,s.block,s.dead⟩ Q) :
    Ensures (Lowering.newBlock c hint >>= f) s Q := h

theorem bind_get {f : State → Build α} (h : Ensures (f s) s Q) : Ensures (get >>= f) s Q := h

theorem guard {p : Prop} [Decidable p] {pos : Option Position} {cause : LoweringCause}
    (h : ¬ p → Ensures (f ()) s Q) :
    Ensures (if p then Lowering.fail pos cause >>= f else f ()) s Q := by
  split
  · exact .bind (.fail pos cause) fun _ _ hf => (hf : False).elim
  · rename_i hp
    exact h hp

end Ensures

/-! Names in scope. -/

/-- What a name stands for has its storage, and a reference has been received. -/
structure Symbolic (m : Module) (f : FuncId) (x : Symbol) : Prop where
  place : Place m m.instrTable.size f x.address x.type
  storable : Storable x.type
  received : ∀ t, x.type = .pointer t → ∃ j, x.address = .instr j ∧ Received m m.instrTable.size f j

structure Scoped (L : Law) (m : Module) (c : Context) : Prop where
  entry : m.Listed ⟨c.func,0⟩
  result : c.result = (m.func c.func).result
  funcs : ∀ name g, find? name c.funcs = some g → g < m.funcTable.size
  voids : ∀ name g, find? name c.funcs = some g → (m.func g).result = .void → L.voidName name
  report : ∃ g, find? Builtin.negativeIndex.name c.funcs = some g ∧ IsReport m .call [.func g]
  symbols : ∀ name x, (c.scopes ++ [c.globals]).findSome? (find? name) = some x →
    Symbolic m c.func x

section
variable {m' : Module} {ns'' : Notes} {u : State} {w : Operand}

theorem Symbolic.grow {f : FuncId} {x : Symbol} (h : Symbolic m f x) (hg : Grows m ns m' ns') :
    Symbolic m' f x where
  place := hg.place hg.full h.place
  storable := h.storable
  received t ht := by
    obtain ⟨j,hj,hr⟩ := h.received t ht
    exact ⟨j,hj,hg.received hg.full hr⟩

theorem Scoped.grow (h : Scoped L m c) (hf : c.func < m.funcTable.size) (hg : Grows m ns m' ns') :
    Scoped L m' c where
  entry := hg.listed _ h.entry
  result := by rw [hg.result _ hf]; exact h.result
  funcs name g hx := Nat.lt_of_lt_of_le (h.funcs name g hx) hg.fuller.funcs
  voids name g hx hr := h.voids name g hx (by rwa [← hg.result g (h.funcs name g hx)])
  report := by
    obtain ⟨g,hx,hr⟩ := h.report
    exact ⟨g,hx,hg.isReport hr⟩
  symbols name x hx := (h.symbols name x hx).grow hg

/-- Lowering can go on in the present block. -/
structure Ready (L : Law) (c : Context) (s : State) (ns : Notes) : Prop where
  built : Built L s.module ns
  isOpen : Open s.module s.block
  func : s.block.func = c.func
  alive : s.dead = false
  role : (ns s.block).role ≠ .report
  entered : Entered s.module s.block s.module.instrTable.size
  names : Scoped L s.module c

/-- Lowering has gone on to a block further down. -/
structure Step (L : Law) (s : State) (ns : Notes) (t : State) (ns' : Notes) : Prop where
  continues : Continues L s.module ns s.block t.module ns' [t.block]
  above : Above ns' s.block t.block
  alive : t.dead = false
  role : (ns' t.block).role ≠ .report
  entered : Entered t.module t.block t.module.instrTable.size

namespace Ready

theorem func_lt (h : Ready L c s ns) : c.func < s.module.funcTable.size :=
  h.func ▸ h.built.func_lt h.isOpen.1

theorem step (h : Ready L c s ns) (hs : Step L s ns t ns') : Ready L c t ns' where
  built := hs.continues.built
  isOpen := hs.continues.isOpen mem_cons_self
  func := (hs.continues.built.func_of_above hs.above
    (hs.continues.isOpen mem_cons_self).1).1.symm.trans h.func
  alive := hs.alive
  role := hs.role
  entered := hs.entered
  names := h.names.grow h.func_lt hs.continues.grows

theorem step_of (h : Ready L c s ns) (hc : Continues L s.module ns s.block m ns [s.block]) :
    Step L s ns ⟨m,s.block,s.dead⟩ ns :=
  ⟨hc,.refl,h.alive,h.role,hc.grows.entered hc.grows.full h.entered⟩

theorem suits (h : Ready L c s ns)
    (hf : Fits L s.module ns s.block s.module.instrTable.size op ty none vs) :
    Suits L s.module ns s.block s.module.instrTable.size op ty none vs :=
  ⟨hf,fun hr => absurd hr h.role,h.entered⟩

end Ready

namespace Step

theorem refl (h : Ready L c s ns) : Step L s ns s ns :=
  ⟨.refl h.built h.isOpen,.refl,h.alive,h.role,h.entered⟩

theorem trans (h : Step L s ns t ns') (h' : Step L t ns' u ns'') : Step L s ns u ns'' where
  continues := by simpa using h.continues.trans h'.continues
  above := (h'.continues.grows.above h.continues.built.tree (h.continues.isOpen mem_cons_self).1
    h.above).trans h'.above
  alive := h'.alive
  role := h'.role
  entered := h'.entered

end Step

abbrev Now (L : Law) (s : State) (ns : Notes) (v : Operand) (ty : Ty) : Prop :=
  Has L s.module ns s.block s.module.instrTable.size v ty

theorem Step.now (h : Ready L c s ns) (hs : Step L s ns t ns') (hv : Now L s ns v ty) :
    Now L t ns' v ty :=
  hs.continues.grows.has h.built.tree h.isOpen.1 hs.continues.grows.full hs.above hv

theorem Has.typeOf (h : Has L m ns b n v ty) : m.typeOf v = ty := by
  cases h with
  | int _ hk _ => exact congrArg Constant.type hk
  | float _ hk => exact congrArg Constant.type hk
  | instr _ _ _ ht _ => exact ht

theorem Place.typeOf {f : FuncId} (h : Place m n f v ty) : m.typeOf v = .pointer ty := by
  cases h with
  | global _ ht => exact congrArg Ty.pointer ht
  | slot _ _ _ ht _ => exact ht

section
variable (h : Ready L c s ns)
include h

theorem Ready.emit (hop : op ≠ .alloca) (ht : op.isTerminator = false)
    (hf : Fits L s.module ns s.block s.module.instrTable.size op ty none vs)
    (hk : k s.module s.block = s.module.emit s.block op ty vs) :
    Ensures (Lowering.emit k) s fun v t => v = .instr s.module.instrTable.size ∧ Step L s ns t ns ∧
      (t.module.code.instr s.module.instrTable.size).op = op ∧
      (t.module.code.instr s.module.instrTable.size).operands = vs ∧
      (t.module.code.instr s.module.instrTable.size).type = ty ∧
      (t.module.code.instr s.module.instrTable.size).parent = some t.block ∧
      s.module.instrTable.size < t.module.instrTable.size ∧ t.block = s.block ∧
      t.module.work s.block = s.module.work s.block ++ [s.module.instrTable.size] := by
  have hbr : op ≠ .br := by
    rintro rfl
    cases ht
  have hc := Continues.emit h.built h.isOpen hop hbr (h.suits hf)
  rw [ht] at hc
  obtain ⟨-,-,hl⟩ := h.built.toLaid.emit h.isOpen hop (h.suits hf)
  intro v t hx
  obtain ⟨m,b,dead⟩ := s
  simp only [Lowering.emit,hk,Except.ok.injEq,Prod.mk.injEq] at hx
  obtain ⟨rfl,rfl⟩ := hx
  exact ⟨rfl,h.step_of hc,by rw [hl.instr_new]; rfl,by rw [hl.instr_new]; rfl,
    by rw [hl.instr_new]; rfl,
    by rw [hl.instr_new]; rfl,by rw [hl.size]; exact Nat.lt_succ_self _,rfl,
    (h.built.toLaid.parts_emit hl hop).2⟩

theorem Ready.effect (hop : op ≠ .alloca) (ht : op.isTerminator = false)
    (hf : Fits L s.module ns s.block s.module.instrTable.size op ty none vs)
    (hk : k s.module s.block = s.module.emit s.block op ty vs) {Q : α → State → Prop}
    {g : Unit → Build α} (hg : ∀ t, Step L s ns t ns → t.block = s.block →
      (t.module.code.instr s.module.instrTable.size).op = op →
      (t.module.code.instr s.module.instrTable.size).operands = vs →
      (t.module.code.instr s.module.instrTable.size).parent = some s.block →
      s.module.instrTable.size < t.module.instrTable.size →
      t.module.work s.block = s.module.work s.block ++ [s.module.instrTable.size] →
      Ensures (g ()) t Q) :
    Ensures (Lowering.emit_ k >>= g) s Q := by
  obtain ⟨-,hs,ho,hv,-,hp,hlt,hb,hw⟩ := h.emit hop ht hf hk _ _ rfl
  exact .bind_emit_ (hg _ hs hb ho hv hp hlt hw)

theorem Ready.emit_value (hop : op ≠ .alloca) (ht : op.isTerminator = false)
    (hf : Fits L s.module ns s.block s.module.instrTable.size op ty none vs)
    (hty : ty.isVoid = false) (hk : k s.module s.block = s.module.emit s.block op ty vs) :
    Ensures (Lowering.emit k) s fun v t => Step L s ns t ns ∧ Now L t ns v ty ∧ t.block = s.block ∧
      ∃ j, v = .instr j ∧ j < t.module.instrTable.size ∧
        (t.module.code.instr j).parent = some t.block ∧
        (t.module.code.instr j).op = op ∧ (t.module.code.instr j).operands = vs := by
  refine (h.emit hop ht hf hk).mono ?_
  rintro v t ⟨rfl,hs,ho,hv,hy,hp,hlt,hb,-⟩
  exact ⟨hs,.instr hlt hp .refl hy hty,hb,_,rfl,hlt,hp,ho,hv⟩

theorem Ready.constant_int {k : Int} (hk : L.literal k) :
    Ensures (constant (.int k)) s fun v t => Step L s ns t ns ∧ Now L t ns v .i32 ∧
    t.block = s.block ∧
      (k = 0 → IsZero t.module v) := by
  intro v t hx
  obtain ⟨m,b,dead⟩ := s
  cases hx
  have hc := Continues.literal h.built h.isOpen (.int k)
  have hlt : m.literalTable.size < (m.addLiteral (.int k)).1.literalTable.size := by
    simp [Module.addLiteral]
  have hval : (m.addLiteral (.int k)).1.code.literal m.literalTable.size = .int k := by
    rw [m.code_addLiteral]
    exact if_pos rfl
  exact ⟨h.step_of hc,.int hlt hval hk,rfl,fun h0 => ⟨_,rfl,hlt,h0 ▸ hval⟩⟩

theorem Ready.constant_float (x : Binary32) :
    Ensures (constant (.float x)) s fun v t => Step L s ns t ns ∧ Now L t ns v .float := by
  intro v t hx
  obtain ⟨m,b,dead⟩ := s
  cases hx
  have hc := Continues.literal h.built h.isOpen (.float x)
  have hval : (m.addLiteral (.float x)).1.code.literal m.literalTable.size = .float x := by
    rw [m.code_addLiteral]
    exact if_pos rfl
  exact ⟨h.step_of hc,.float (by simp) hval⟩

theorem Ready.lookup (pos : Position) (name : String) :
    Ensures (Lowering.lookup c pos name) s fun x t => t = s ∧ Symbolic s.module c.func x := by
  unfold Lowering.lookup
  split
  · rename_i x hx
    exact .pure ⟨rfl,h.names.symbols name x hx⟩
  · exact .fail _ _

end

/-! Expressions, part by part. -/

theorem scalarType_isVoid (x : Scalar) : (scalarType x).isVoid = false := by cases x <;> rfl

theorem Ready.convert (h : Ready L c s ns) (hv : Now L s ns v (scalarType x)) (y : Scalar) :
    Ensures (convert v (scalarType y)) s fun w t => Step L s ns t ns ∧
    Now L t ns w (scalarType y) := by
  refine .bind_typeOf ?_
  rw [hv.typeOf]
  cases x <;> cases y
  · exact .pure ⟨.refl h,hv⟩
  · exact .mono (h.emit_value (k := (·.sitofp · v)) (by decide) rfl (.sitofp hv) rfl rfl)
      fun w t ht => ⟨ht.1,ht.2.1⟩
  · exact .mono (h.emit_value (k := (·.fptosi · v)) (by decide) rfl (.fptosi hv) rfl rfl)
      fun w t ht => ⟨ht.1,ht.2.1⟩
  · exact .pure ⟨.refl h,hv⟩

theorem opcode_cases (op : BinaryOp) :
    (op.isComparison = true ∧ ∃ r, intOpcode op = .icmp r ∧ floatOpcode op = .fcmp r) ∨
      (op.isComparison = false ∧ ∃ o, intOpcode op = .int o ∧ floatOpcode op = .float o) := by
  cases op
  case add => exact .inr ⟨rfl,.add,rfl,rfl⟩
  case sub => exact .inr ⟨rfl,.sub,rfl,rfl⟩
  case mul => exact .inr ⟨rfl,.mul,rfl,rfl⟩
  case div => exact .inr ⟨rfl,.div,rfl,rfl⟩
  case eq => exact .inl ⟨rfl,.eq,rfl,rfl⟩
  case ne => exact .inl ⟨rfl,.ne,rfl,rfl⟩
  case lt => exact .inl ⟨rfl,.lt,rfl,rfl⟩
  case le => exact .inl ⟨rfl,.le,rfl,rfl⟩
  case gt => exact .inl ⟨rfl,.gt,rfl,rfl⟩
  case ge => exact .inl ⟨rfl,.ge,rfl,rfl⟩

theorem Ready.operation (h : Ready L c s ns) (op : BinaryOp) (hv : Now L s ns v (scalarType x))
    (hw : Now L s ns w (scalarType x)) {code : Opcode}
    (hcode : code = if x = .float then floatOpcode op else intOpcode op) :
    Ensures (if op.isComparison then do
        let b ← Lowering.emit (·.compare · code v w)
        Lowering.emit (·.zext · b)
      else Lowering.emit (·.binary · code v w)) s
      fun r t => Step L s ns t ns ∧ ∃ z, Now L t ns r (scalarType z) := by
  have compare : ∀ code, Fits L s.module ns s.block s.module.instrTable.size code .i1 none [v,w] →
    code ≠ .alloca →
      code.isTerminator = false → Ensures (do
        let b ← Lowering.emit (·.compare · code v w)
        Lowering.emit (·.zext · b)) s fun r t => Step L s ns t ns ∧
          ∃ z, Now L t ns r (scalarType z) := by
    intro code hf hop hterm
    refine .bind (h.emit_value (k := (·.compare · code v w)) hop hterm hf rfl rfl) ?_
    rintro b t ⟨hs,hb,-⟩
    have ht := h.step hs
    exact .mono (ht.emit_value (k := (·.zext · b)) (by decide) rfl (.zext hb) rfl rfl) fun r u hu =>
      ⟨hs.trans hu.1,.int,hu.2.1⟩
  have arith : ∀ code, Fits L s.module ns s.block s.module.instrTable.size code (scalarType x) none
    [v,w] → code ≠ .alloca →
      code.isTerminator = false →
      Ensures (Lowering.emit (·.binary · code v w)) s fun r t => Step L s ns t ns ∧
        ∃ z, Now L t ns r (scalarType z) := by
    intro code hf hop hterm
    refine .mono (h.emit_value (k := (·.binary · code v w)) hop hterm hf (scalarType_isVoid x) ?_)
      fun r t ht => ⟨ht.1,x,ht.2.1⟩
    simp only [Module.binary,hv.typeOf]
  rcases opcode_cases op with ⟨hc,r,hi,hf⟩ | ⟨hc,o,hi,hf⟩
  · rw [hi,hf] at hcode
    rw [hc,if_pos rfl]
    cases x with
    | int => exact hcode ▸ compare (.icmp r) (.icmp hv hw) Opcode.noConfusion rfl
    | float => exact hcode ▸ compare (.fcmp r) (.fcmp hv hw) Opcode.noConfusion rfl
  · rw [hi,hf] at hcode
    rw [hc,if_neg Bool.false_ne_true]
    cases x with
    | int => exact hcode ▸ arith (.int o) (.int hv hw) Opcode.noConfusion rfl
    | float => exact hcode ▸ arith (.float o) (.float hv hw) Opcode.noConfusion rfl

/-- What lowering an expression gives: a value of a scalar type, or none. -/
def Value (L : Law) (s : State) (ns : Notes) (v : Operand) : Prop :=
  (∃ x, Now L s ns v (scalarType x)) ∨ (s.module.typeOf v).isVoid = true

def Valued (L : Law) (c : Context) (x : Build Operand) : Prop :=
  ∀ s ns, Ready L c s ns → Ensures x s fun v t => ∃ ns', Step L s ns t ns' ∧ Value L t ns' v

theorem Value.now (h : Value L s ns v) (hv : ¬ (s.module.typeOf v).isVoid = true) :
    ∃ x, Now L s ns v (scalarType x) :=
  h.resolve_right hv

theorem Ready.binary (h : Ready L c s ns) (op : BinaryOp) (hv : Value L s ns v)
    (hw : Value L s ns w) :
    Ensures (Lowering.binary op v w) s fun r t => Step L s ns t ns ∧
    ∃ z, Now L t ns r (scalarType z) := by
  refine .bind_typeOf (.bind_typeOf (.guard fun hvoid => ?_))
  rw [Bool.or_eq_true,not_or] at hvoid
  obtain ⟨x,hv⟩ := hv.now hvoid.1
  obtain ⟨y,hw⟩ := hw.now hvoid.2
  rw [hv.typeOf,hw.typeOf]
  by_cases hf : ((scalarType x).isFloat || (scalarType y).isFloat) = true
  · simp only [hf]
    refine .bind (h.convert hv .float) ?_
    rintro v' t ⟨hs,hv'⟩
    have ht := h.step hs
    refine .bind (ht.convert (hs.now h hw) .float) ?_
    rintro w' u ⟨hs',hw'⟩
    exact .mono ((ht.step hs').operation op (hs'.now ht hv') hw' rfl) fun r t hr =>
      ⟨(hs.trans hs').trans hr.1,hr.2⟩
  · cases x with
    | float => exact absurd rfl hf
    | int =>
      cases y with
      | float => exact absurd rfl hf
      | int => exact h.operation op hv hw rfl

/-! Branches. -/

theorem Ready.enter (h : Ready L c s ns) {xs : List BlockId}
    (hc : Continues L s.module ns s.block m' ns' xs) {x : BlockId} (hx : x ∈ xs)
    (hf : x.func = c.func) (hr : (ns' x).role ≠ .report) (he : Entered m' x m'.instrTable.size) :
    Ready L c ⟨m',x,false⟩ ns' :=
  ⟨hc.built,hc.isOpen hx,hf,rfl,hr,he,h.names.grow h.func_lt hc.grows⟩

/-- What a branch to two new blocks leaves. -/
structure Forked (L : Law) (c : Context) (s : State) (ns : Notes) (t : State) (ns' : Notes)
    (x y : BlockId) (r r' : Role) : Prop where
  continues : Continues L s.module ns s.block t.module ns' [x,y]
  left : x.func = c.func
  right : y.func = c.func
  note_left : ns' x = ⟨some s.block,r⟩
  note_right : ns' y = ⟨some s.block,r'⟩
  entered_left : Entered t.module x t.module.instrTable.size
  entered_right : Entered t.module y t.module.instrTable.size
  fresh : ¬ s.module.Listed y

theorem Ready.fork (h : Ready L c s ns) (hv : Now L s ns v .i1) (hint hint' : String) (r r' : Role)
    (hr : ∀ i, r ≠ .checked i)
    (hr' : ∀ i, r' = .checked i → IsSignTest s.module s.block s.module.instrTable.size v i)
        {Q : α → State → Prop}
    {k : BlockId → BlockId → Build α}
    (hk : ∀ x y t ns', Forked L c s ns t ns' x y r r' → Ensures (k x y) t Q) :
    Ensures (do
      let x ← newBlock c hint
      let y ← newBlock c hint'
      emit_ (·.condBr · v x y)
      k x y) s Q := by
  refine .bind_newBlock (.bind_newBlock (.bind_emit_ ?_))
  obtain ⟨m,b,dead⟩ := s
  have h1 := Continues.block h.built h.isOpen hint h.isOpen.1 h.func r
  dsimp only at h1 ⊢
  generalize (m.addBlock c.func hint).1 = m1 at *
  have h2 := Continues.block h1.built (h1.isOpen mem_cons_self) hint'
    (h1.grows.listed b h.isOpen.1) h.func r'
  generalize (m1.addBlock c.func hint').1 = m2 at *
  generalize hx : (⟨c.func,(m.func c.func).blocks.size⟩ : BlockId) = x at *
  generalize hy : (⟨c.func,(m1.func c.func).blocks.size⟩ : BlockId) = y at *
  generalize hn1 : Function.update ns x ⟨some b,r⟩ = ns1 at *
  generalize hn2 : Function.update ns1 y ⟨some b,r'⟩ = ns2 at *
  have h12 := h1.trans h2
  have hnx : ns2 x = ⟨some b,r⟩ := by
    rw [h2.grows.notes x (h1.isOpen (mem_cons_of_mem _ mem_cons_self)).1,← hn1,Function.update_self]
  have hny : ns2 y = ⟨some b,r'⟩ := by rw [← hn2,Function.update_self]
  have edge : ∀ {z}, z ∈ [b,y] ++ [x] → z.func = c.func → (ns2 z).up = some b → Edge m2 ns2 b z :=
    fun hz hf hu =>
    ⟨hf.trans h.func.symm,(h12.isOpen hz).1,b,hu,.refl⟩
  have hfits : Fits L m2 ns2 b m2.instrTable.size .br .void none [v,.block x,.block y] := by
    refine .condBr (h12.grows.has h.built.tree h.isOpen.1 h12.grows.full .refl hv)
      (edge (by simp) (hx ▸ rfl) (by rw [hnx])) (edge (by simp) (hy ▸ rfl) (by rw [hny]))
        (fun i => ?_) fun i hi => ?_
    · rw [hnx]
      exact hr i
    · rw [hny] at hi
      exact h12.grows.isSignTest h12.grows.full (hr' i hi)
  have hrole : (ns2 b).role ≠ .report := by
    rw [h12.grows.notes b h.isOpen.1]
    exact h.role
  obtain ⟨hbr,hpreds⟩ := Continues.branch h12.built (h12.isOpen (by simp))
    ⟨hfits,fun hr => absurd hr hrole,h12.grows.entered h12.grows.full h.entered⟩
    (show [v,.block x,.block y].filterMap Module.blockOf? = [x,y] by cases hv; rfl)
  have hnew : ¬ m1.Listed y := fun hl => Nat.lt_irrefl _ (h1.built.listed_iff.mp (hy ▸ hl))
  exact hk x y _ ns2 ⟨(h12.trans hbr).perm (List.Perm.swap x y []),hx ▸ rfl,hy ▸ rfl,hnx,hny,
    hbr.built.entered (hpreds x (by simp)),hbr.built.entered (hpreds y (by simp)),
    fun hl => hnew (h1.grows.listed y hl)⟩

/-- The report of a negative index, and the way on to where the index is known not to be negative.
-/
theorem Forked.report {x y : BlockId} (hf : Forked L c s ns t ns' x y .report (.checked v))
    {g : FuncId} (hg : IsReport s.module .call [.func g]) :
    let m' := (Module.br ((t.module.call x g []).1) x y).1
    Step L s ns ⟨m',y,false⟩ ns' ∧ Guarded m' ns' y m'.instrTable.size := by
  obtain ⟨m,b,dead⟩ := t
  have hc := hf.continues
  dsimp only at hc ⊢
  have hgm : IsReport m .call [.func g] := hc.grows.isReport hg
  obtain ⟨-,g',hg',hlt,hl,hname⟩ := hgm
  cases hg'
  -- the report takes no arguments
  obtain ⟨z,hz,-,hp⟩ := hc.built.builtin g hlt hl
  have hparams : (m.func g).params = [] := by
    rw [hp]
    cases z <;> first | rfl | exact absurd (hname.symm.trans hz) (by decide)
  have hcall : Fits L m ns' x m.instrTable.size .call (m.func g).result none [.func g] :=
    .call hlt (hparams ▸ .nil)
  have hsuits : Suits L m ns' x m.instrTable.size .call (m.func g).result none [.func g] :=
    ⟨hcall,fun _ => .inl ⟨rfl,g,rfl,hlt,hl,hname⟩,hf.entered_left⟩
  have h1 := Continues.emit hc.built (hc.isOpen mem_cons_self) (by decide) (by decide) hsuits
  obtain ⟨-,-,hlink⟩ := hc.built.toLaid.emit (hc.isOpen mem_cons_self) (by decide) hsuits
  change Continues L m ns' x (m.call x g []).1 ns' [x] at h1
  change Module.Linked m (m.call x g []).1 x .call (m.func g).result none [.func g]
    (m.block x).instrs [] at hlink
  generalize (m.call x g []).1 = m1 at *
  have h01 := hc.trans h1
  have hedge : Edge m1 ns' x y :=
    ⟨hf.right.trans hf.left.symm,(h01.isOpen (by simp)).1,s.block,by rw [hf.note_right],
      .step (by rw [hf.note_left]) .refl⟩
  have hnew : m.instrTable.size < m1.instrTable.size := by rw [hlink.size]; exact Nat.lt_succ_self _
  have hreport : Reported m1 ns' x m1.instrTable.size .br [.block y] :=
    fun _ => .inr ⟨m.instrTable.size,hnew,
    by rw [hlink.instr_new]; rfl,
    by rw [hlink.instr_new]; exact h1.grows.isReport ⟨rfl,g,rfl,hlt,hl,hname⟩⟩
  obtain ⟨h2,hpred⟩ := Continues.branch h01.built (h01.isOpen (by simp))
    ⟨.br hedge fun _ _ => by rw [hf.note_left],hreport,
    h1.grows.entered h1.grows.full hf.entered_left⟩
    (show [Operand.block y].filterMap Module.blockOf? = [y] from rfl)
  replace hpred := hpred y mem_cons_self
  change Continues L m1 ns' x (m1.br x y).1 ns' [] at h2
  change x ∈ ((m1.br x y).1.block y).preds at hpred
  generalize (m1.br x y).1 = m2 at *
  obtain ⟨t,ht,hty⟩ := (h2.built.charted.succs x y).mp ((h2.built.charted.preds x y).mp hpred)
  obtain ⟨hlt,hp⟩ := h2.built.member x t ht
  exact ⟨⟨h01.trans h2,.step (by rw [hf.note_right]) .refl,rfl,
    by rw [hf.note_right]; exact Role.noConfusion,h2.built.entered hpred⟩,
    t,hlt,x,(h2.built.listed_of_parent hlt hp).1,hp,hty,by rw [hf.note_left]⟩

theorem Storable.cases (h : Storable ty) :
    (∃ x, ty = scalarType x ∧ ty.isArray = false ∧ ty.isPointer = false) ∨
      (∃ k x, ty = .array k (scalarType x) ∧ ty.isArray = true) ∨
      ∃ x, ty = .pointer (scalarType x) ∧ ty.isArray = false ∧ ty.isPointer = true := by
  cases h with
  | scalar x => exact .inl ⟨x,rfl,by cases x <;> rfl,by cases x <;> rfl⟩
  | array k x => exact .inr (.inl ⟨k,x,rfl,rfl⟩)
  | pointer x => exact .inr (.inr ⟨x,rfl,rfl,rfl⟩)

/-- The address of an element, in a block where the index is known not to be negative. -/
theorem Ready.elementAddress (h : Ready L c s ns) (pos : Position) (name : String)
    {index : Build Operand} (hi : Valued L c index) :
    Ensures (elementAddress c pos name index) s fun v t =>
      ∃ ns', Step L s ns t ns' ∧ ∃ j x, v = .instr j ∧ Now L t ns' v (.pointer (scalarType x)) ∧
        (t.module.code.instr j).op = .gep ∧ (t.module.code.instr j).parent = some t.block := by
  unfold Lowering.elementAddress
  refine .bind (h.lookup pos name) ?_
  rintro x _ ⟨rfl,hx⟩
  refine .guard fun hkind => ?_
  refine .bind (hi _ ns h) ?_
  rintro i s1 ⟨ns1,hs1,hv⟩
  refine .bind_typeOf (.guard fun hvoid => ?_)
  obtain ⟨z,hz⟩ := hv.now hvoid
  have h1 := h.step hs1
  refine .bind (h1.convert hz .int) ?_
  rintro i s2 ⟨hs2,hi⟩
  have h2 := h1.step hs2
  refine .bind (h2.constant_int L.zero) ?_
  rintro zero s3 ⟨hs3,hzero,-,hzero'⟩
  have h3 := h2.step hs3
  have hi3 := hs3.now h2 hi
  refine .bind (h3.emit_value (k := (·.compare · (.icmp .lt) i zero)) (by decide) rfl
    (.icmp hi3 hzero) rfl rfl) ?_
  rintro negative s4 ⟨hs4,hneg,-,j,rfl,hj,hpj,hop,hvs⟩
  have h4 := h3.step hs4
  have hi4 := hs4.now h3 hi3
  refine h4.fork hneg "negidx" "idxok" .report (.checked i) (fun _ => Role.noConfusion) ?_ ?_
  · rintro i' hi'
    cases hi'
    exact ⟨j,zero,rfl,hj,hpj,hop,hvs,hs4.continues.grows.isZero (hzero' rfl)⟩
  rintro bad good s5 ns5 hfork
  refine .bind_setBlock ?_
  obtain ⟨g,hg,hreport⟩ := h4.names.report
  rw [hg]
  refine .bind_emit_ (.bind_emit_ (.bind_setBlock ?_))
  obtain ⟨hs5,hguard⟩ := hfork.report hreport
  have h5 := h4.step hs5
  have hs := (((hs1.trans hs2).trans hs3).trans hs4).trans hs5
  have hi5 := hs5.now h4 hi4
  have hrole : (ns5 good).role = .checked i := congrArg Note.role hfork.note_right
  have helse : Elsewhere s4.module good i := by
    rintro l rfl hl
    cases hi4 with
    | instr hlt => exact hfork.fresh (h4.built.listed_of_parent hlt hl).1
  have helse := hs5.continues.grows.elsewhere (Nat.le_refl _) hi4 helse
  have hx5 := hx.grow hs.continues.grows
  dsimp only at h5 hs hi5 hx5 hguard ⊢
  generalize (Module.br (s5.module.call bad g []).1 bad good).1 = m at *
  rcases hx.storable.cases with ⟨y,-,ha,hp⟩ | ⟨k,y,hy,ha⟩ | ⟨y,hy,ha,hp⟩
  · rw [ha,hp] at hkind
    exact absurd rfl hkind
  · rw [ha,if_pos rfl]
    refine .bind (h5.constant_int L.zero) ?_
    rintro zero' s6 ⟨hs6,-,hb6,hz6⟩
    have h6 := h5.step hs6
    have he6 := hs6.continues.grows.elsewhere (Nat.le_refl _) hi5 helse
    have hplace := (hx5.grow hs6.continues.grows).place
    rw [hy] at hplace
    have hf : Fits L s6.module ns5 s6.block s6.module.instrTable.size .gep
      (.pointer (scalarType y)) none [x.address,zero',i] :=
      .gepElement (h6.func ▸ hplace) (hz6 rfl) (hs6.now h5 hi5) (hb6 ▸ he6)
        (by rw [hb6]; exact hrole)
        (hb6 ▸ hs6.continues.grows.guarded hs6.continues.grows.full hguard)
    refine .mono (h6.emit_value (k := (·.gep · x.address [zero',i])) (by decide) rfl hf rfl ?_) ?_
    · simp only [Module.gep,hplace.typeOf]
      rfl
    · rintro v t ⟨ht,hv,-,j,rfl,-,hpar,hop,-⟩
      exact ⟨ns5,(hs.trans hs6).trans ht,j,y,rfl,hv,hop,hpar⟩
  · rw [ha,if_neg Bool.false_ne_true]
    obtain ⟨l,hl,hreceived⟩ := hx5.received _ hy
    have hplace := hx5.place
    rw [hy,hl] at hplace
    have hload : Fits L m ns5 good m.instrTable.size .load (.pointer (scalarType y)) none
      [.instr l] :=
      .loadReference (h5.func ▸ hplace) (h5.func ▸ hreceived)
    refine .bind (h5.emit_value (k := (·.load · x.address)) (by decide) rfl hload rfl ?_) ?_
    · simp only [Module.load,hl,hplace.typeOf]
      rfl
    · rintro base s6 ⟨hs6,hb,hb6,l',rfl,-,-,hop,-⟩
      have h6 := h5.step hs6
      have he6 := hs6.continues.grows.elsewhere (Nat.le_refl _) hi5 helse
      have hf : Fits L s6.module ns5 s6.block s6.module.instrTable.size .gep
        (.pointer (scalarType y)) none [.instr l',i] :=
        .gepOffset hb hop (hs6.now h5 hi5) (hb6 ▸ he6) (by rw [hb6]; exact hrole)
          (hb6 ▸ hs6.continues.grows.guarded hs6.continues.grows.full hguard)
      refine .mono (h6.emit_value (k := (·.gep · (.instr l') [i])) (by decide) rfl hf rfl ?_) ?_
      · simp only [Module.gep,hb.typeOf]
        rfl
      · rintro v t ⟨ht,hv,-,j,rfl,-,hpar,hop,-⟩
        exact ⟨ns5,(hs.trans hs6).trans ht,j,y,rfl,hv,hop,hpar⟩

theorem Ready.arrayAddress (h : Ready L c s ns) (pos : Position) (name : String) :
    Ensures (arrayAddress c pos name) s fun v t => Step L s ns t ns ∧ ∃ j x, v = .instr j ∧
      Now L t ns v (.pointer (scalarType x)) ∧ IsBase t.module j := by
  unfold Lowering.arrayAddress
  refine .bind (h.lookup pos name) ?_
  rintro x _ ⟨rfl,hx⟩
  rcases hx.storable.cases with ⟨y,-,ha,hp⟩ | ⟨k,y,hy,ha⟩ | ⟨y,hy,ha,hp⟩
  · rw [ha,hp,if_neg Bool.false_ne_true,if_neg Bool.false_ne_true]
    exact .fail _ _
  · rw [ha,if_pos rfl]
    refine .bind (h.constant_int L.zero) ?_
    rintro first s1 ⟨hs1,-,-,hz1⟩
    have h1 := h.step hs1
    refine .bind (h1.constant_int L.zero) ?_
    rintro second s2 ⟨hs2,-,-,hz2⟩
    have h2 := h1.step hs2
    have hplace := (hx.grow (hs1.trans hs2).continues.grows).place
    rw [hy] at hplace
    refine .mono (h2.emit_value (k := (·.gep · x.address [first,second])) (by decide) rfl
      (.gepFirst (h2.func ▸ hplace) (hs2.continues.grows.isZero (hz1 rfl)) (hz2 rfl)) rfl ?_) ?_
    · simp only [Module.gep,hplace.typeOf]
      rfl
    · rintro v t ⟨ht,hv,-,j,rfl,-,-,hop,hvs⟩
      exact ⟨(hs1.trans hs2).trans ht,j,y,rfl,hv,
        .inr ⟨hop,_,_,_,hvs,ht.continues.grows.isZero (hz2 rfl)⟩⟩
  · rw [ha,hp,if_neg Bool.false_ne_true,if_pos rfl]
    obtain ⟨l,hl,hreceived⟩ := hx.received _ hy
    have hplace := hx.place
    rw [hy,hl] at hplace
    refine .mono (h.emit_value (k := (·.load · x.address)) (by decide) rfl
      (.loadReference (h.func ▸ hplace) (h.func ▸ hreceived)) rfl ?_) ?_
    · simp only [Module.load,hl,hplace.typeOf]
      rfl
    · rintro v t ⟨ht,hv,-,j,rfl,-,-,hop,-⟩
      exact ⟨ht,j,y,rfl,hv,.inl hop⟩

def IsTarget (L : Law) (c : Context) (s : State) (ns : Notes) (p : Operand) (x : Scalar) : Prop :=
  Place s.module s.module.instrTable.size c.func p (scalarType x) ∨
    ∃ j, p = .instr j ∧ j < s.module.instrTable.size ∧ Now L s ns p (.pointer (scalarType x)) ∧
      (s.module.code.instr j).op = .gep

theorem IsTarget.step (h : Ready L c s ns) (hs : Step L s ns t ns') (hp : IsTarget L c s ns p x) :
    IsTarget L c t ns' p x := by
  rcases hp with hp | ⟨j,rfl,hj,hp,hop⟩
  · exact Or.inl (hs.continues.grows.place hs.continues.grows.full hp)
  · exact Or.inr ⟨j,rfl,hj.trans_le hs.continues.grows.fuller.instrs,hs.now h hp,
      by rw [hs.continues.grows.instr j hj]; exact hop⟩

theorem IsTarget.typeOf (h : IsTarget L c s ns p x) :
    s.module.typeOf p = .pointer (scalarType x) := by
  rcases h with h | ⟨j,rfl,-,h,-⟩
  · exact h.typeOf
  · exact h.typeOf

theorem Ready.assignTo (h : Ready L c s ns) (pos : Position) (name : String)
    (hp : IsTarget L c s ns p x) (hv : Value L s ns v) :
    Ensures (assignTo pos name p v) s fun w t => Step L s ns t ns ∧
    Now L t ns w (scalarType x) := by
  unfold Lowering.assignTo
  refine .bind_typeOf (.guard fun hvoid => .bind_typeOf ?_)
  obtain ⟨y,hy⟩ := hv.now hvoid
  rw [hp.typeOf]
  refine .bind (h.convert hy x) ?_
  rintro w t ⟨hs,hw⟩
  have ht := h.step hs
  have hf : Fits L t.module ns t.block t.module.instrTable.size .store .void none [w,p] := by
    rcases hp.step h hs with hp | ⟨j,rfl,-,hp,hop⟩
    · exact .storeVariable hw (ht.func ▸ hp)
    · exact .storeElement hw hp hop
  exact ht.effect (by decide) rfl hf rfl fun u hs' _ _ _ _ _ _ => .pure ⟨hs.trans hs',hs'.now ht hw⟩

theorem Ready.variableSymbol (h : Ready L c s ns) (pos : Position) (name : String)
    (cause : LoweringCause) :
    Ensures (variableSymbol c pos name cause) s fun x t => t = s ∧ ∃ y, x.type = scalarType y ∧
      Place s.module s.module.instrTable.size c.func x.address (scalarType y) := by
  refine .bind (h.lookup pos name) ?_
  rintro x _ ⟨rfl,hx⟩
  split
  · rename_i hvar
    rcases hx.storable.cases with ⟨y,hy,-⟩ | ⟨k,y,hy,-⟩ | ⟨y,hy,-⟩
    · exact .pure ⟨rfl,y,hy,hy ▸ hx.place⟩
    · rw [Symbol.isVariable,hy] at hvar
      cases hvar
    · rw [Symbol.isVariable,hy] at hvar
      cases hvar
  · exact .fail _ _

end

/-- What lowering gives for an expression without a value, which is a call. -/
def VoidCall (L : Law) (e : Expr) (s : State) (ns : Notes) (v : Operand) : Prop :=
  (∃ pos name args, e = .call pos name args ∧ L.voidName name) ∧ ∃ j b, v = .instr j ∧
    j < s.module.instrTable.size ∧
    (s.module.code.instr j).parent = some b ∧ Above ns b s.block ∧
      (s.module.code.instr j).type = .void

def Outcome (L : Law) (e : Expr) (s : State) (ns : Notes) (v : Operand) : Prop :=
  (∃ x, Now L s ns v (scalarType x)) ∨ VoidCall L e s ns v

theorem Outcome.value (h : Outcome L e s ns v) :
    Value L s ns v := by
  rcases h with h | ⟨-,j,_,rfl,_,_,_,ht⟩
  · exact Or.inl h
  · have : (s.module.typeOf (.instr j)) = .void := ht
    exact Or.inr (by rw [this]; rfl)

theorem Outcome.step (h : Ready L c s ns)
    (ho : Outcome L e s ns v) (hs : Step L s ns t ns') : Value L t ns' v := by
  rcases ho with ⟨x,hx⟩ | ⟨-,j,_,rfl,hj,_,_,ht⟩
  · exact Or.inl ⟨x,hs.now h hx⟩
  · have hty : t.module.typeOf (.instr j) = .void := by
      rw [← ht,← hs.continues.grows.instr j hj]
      rfl
    exact Or.inr (by rw [hty]; rfl)

mutual
theorem Ready.expr {L : Law} {c : Context} {s : State} {ns : Notes} (h : Ready L c s ns) :
    (e : Expr) → e.Within L.literal →
    Ensures (expr c e) s fun v t => ∃ ns', Step L s ns t ns' ∧ Outcome L e t ns' v
  | .integer n, hw => by
    unfold Lowering.expr
    exact .mono (h.constant_int hw) fun v t ht => ⟨ns,ht.1,.inl ⟨.int,ht.2.1⟩⟩
  | .decimal x, _ => by
    unfold Lowering.expr
    exact .mono (h.constant_float x) fun v t ht => ⟨ns,ht.1,.inl ⟨.float,ht.2⟩⟩
  | .variable pos name, _ => by
    unfold Lowering.expr
    refine .bind (h.variableSymbol pos name _) ?_
    rintro x _ ⟨rfl,y,-,hp⟩
    refine .mono (h.emit_value (k := (·.load · x.address)) (by decide) rfl
      (.loadVariable (h.func ▸ hp))
      (scalarType_isVoid y) ?_) fun v t ht => ⟨ns,ht.1,.inl ⟨y,ht.2.1⟩⟩
    simp only [Module.load,hp.typeOf]
    rfl
  | .element pos name index, hw => by
    unfold Lowering.expr
    have hi : Valued L c (Lowering.expr c index) := fun s ns hr =>
      .mono (hr.expr index hw) fun v t ⟨ns',hs,ho⟩ => ⟨ns',hs,ho.value⟩
    refine .bind (h.elementAddress pos name hi) ?_
    rintro v t ⟨ns',hs,j,x,rfl,hv,hop,hpar⟩
    refine .mono ((h.step hs).emit_value (k := (·.load · (.instr j))) (by decide) rfl
      (.loadElement hv hop hpar)
      (scalarType_isVoid x) ?_) fun v u hu => ⟨ns',hs.trans hu.1,.inl ⟨x,hu.2.1⟩⟩
    simp only [Module.load,hv.typeOf]
    rfl
  | .assign pos name value, hw => by
    unfold Lowering.expr
    refine .bind (h.variableSymbol pos name _) ?_
    rintro x _ ⟨rfl,y,-,hp⟩
    refine .bind (h.expr value hw) ?_
    rintro v t ⟨ns',hs,ho⟩
    have hp : IsTarget L c _ ns x.address y := Or.inl hp
    exact .mono ((h.step hs).assignTo pos name (hp.step h hs) ho.value) fun w u hu =>
      ⟨ns',hs.trans hu.1,.inl ⟨y,hu.2⟩⟩
  | .assignElement pos name index value, hw => by
    unfold Lowering.expr
    have hi : Valued L c (Lowering.expr c index) := fun s ns hr =>
      .mono (hr.expr index hw.1) fun v t ⟨ns',hs,ho⟩ => ⟨ns',hs,ho.value⟩
    refine .bind (h.elementAddress pos name hi) ?_
    rintro a t ⟨ns',hs,j,x,rfl,ha,hop,-⟩
    have ht := h.step hs
    refine .bind (ht.expr value hw.2) ?_
    rintro v u ⟨ns'',hs',ho⟩
    have hp : IsTarget L c t ns' (.instr j) x := Or.inr ⟨j,rfl,by cases ha; assumption,ha,hop⟩
    exact .mono ((ht.step hs').assignTo pos name (hp.step ht hs') ho.value) fun w u hu =>
      ⟨ns'',(hs.trans hs').trans hu.1,.inl ⟨x,hu.2⟩⟩
  | .binary op left right, hw => by
    unfold Lowering.expr
    refine .bind (h.expr left hw.1) ?_
    rintro l t ⟨ns',hs,hl⟩
    have ht := h.step hs
    refine .bind (ht.expr right hw.2) ?_
    rintro r u ⟨ns'',hs',hr⟩
    exact .mono ((ht.step hs').binary op (hl.step ht hs') hr.value) fun r w hw =>
      ⟨ns'',(hs.trans hs').trans hw.1,.inl hw.2⟩
  | .call pos name args, hw => by
    unfold Lowering.expr
    split
    · exact .fail _ _
    · rename_i g hg
      refine .bind_get (.guard fun hlen => ?_)
      have hlt : g < s.module.funcTable.size := h.names.funcs name g hg
      refine .bind (h.arguments pos name 1 (s.module.func g).params args (not_not.mp hlen)
        (h.built.signature g hlt).params hw) ?_
      rintro vs t ⟨ns',hs,hvs⟩
      have hgrow := hs.continues.grows
      have hlt' : g < t.module.funcTable.size := hlt.trans_le hgrow.fuller.funcs
      have hf : Fits L t.module ns' t.block t.module.instrTable.size .call
        (t.module.func g).result none (.func g :: vs) :=
        .call hlt' (by rw [hgrow.params g hlt]; exact hvs)
      refine .mono ((h.step hs).emit (k := (·.call · g vs)) (by decide) rfl hf rfl) ?_
      rintro v u ⟨rfl,hs',-,-,hty,hp,hj,-⟩
      refine ⟨ns',hs.trans hs',?_⟩
      have hres := (hs.continues.built.signature g hlt').result
      rcases hres with hres | ⟨x,hres⟩
      · exact .inr ⟨⟨pos,name,args,rfl,(h.step hs).names.voids name g hg hres⟩,_,_,rfl,hj,hp,.refl,
          hty.trans hres⟩
      · exact .inl ⟨x,.instr hj hp .refl (hty.trans hres) (scalarType_isVoid x)⟩
theorem Ready.arguments {L : Law} {c : Context} {s : State} {ns : Notes} (h : Ready L c s ns)
    (pos : Position) (name : String) :
    (n : Nat) → (ts : List Ty) → (es : List Expr) → es.length = ts.length →
    (∀ t ∈ ts, (∃ x, t = scalarType x) ∨ ∃ x, t = .pointer (scalarType x)) →
      Expr.allWithin L.literal es →
    Ensures (arguments c pos name n ts es) s fun vs t => ∃ ns', Step L s ns t ns' ∧
      List.Forall₂ (Passes L t.module ns' t.block t.module.instrTable.size) vs ts
  | n, [], [], _, _, _ => by
    unfold Lowering.arguments
    exact .pure ⟨ns,.refl h,.nil⟩
  | n, [], _::_, hlen, _, _ => by cases hlen
  | n, _::_, [], hlen, _, _ => by cases hlen
  | n, t::ts, e::es, hlen, hts, hw => by
    unfold Lowering.arguments
    have rest : ∀ v s1 ns1, Step L s ns s1 ns1 →
      Passes L s1.module ns1 s1.block s1.module.instrTable.size v t →
        Ensures (do
          let vs ← Lowering.arguments c pos name (n + 1) ts es
          return v :: vs) s1 fun vs u => ∃ ns', Step L s ns u ns' ∧
            List.Forall₂ (Passes L u.module ns' u.block u.module.instrTable.size) vs (t :: ts) := by
      intro v s1 ns1 hs hv
      have h1 := h.step hs
      refine .bind (h1.arguments pos name (n + 1) ts es (Nat.succ.inj hlen)
        (fun t ht => hts t (mem_cons_of_mem _ ht)) hw.2) ?_
      rintro vs u ⟨ns',hs',hvs⟩
      have hg := hs'.continues.grows
      exact .pure ⟨ns',hs.trans hs',
        .cons (hg.passes h1.built.tree h1.isOpen.1 hg.full hs'.above hv) hvs⟩
    rcases hts t mem_cons_self with ⟨x,rfl⟩ | ⟨x,rfl⟩
    · have hp : (scalarType x).isPointer = false := by cases x <;> rfl
      rw [hp,if_neg Bool.false_ne_true]
      refine .bind (h.expr e hw.1) ?_
      rintro v s1 ⟨ns1,hs,ho⟩
      refine .bind_typeOf (.guard fun hscalar => ?_)
      have hvoid : ¬ (s1.module.typeOf v).isVoid = true := by
        intro hv
        apply hscalar
        rw [Ty.isVoid,beq_iff_eq] at hv
        simp [Ty.isScalar,Ty.isInteger,Ty.isFloat,Ty.isPointer,hv]
      obtain ⟨y,hy⟩ := ho.value.now hvoid
      have h1 := h.step hs
      refine .bind (h1.convert hy x) ?_
      rintro w u ⟨hs',hw⟩
      exact rest w u ns1 (hs.trans hs') (.value hw)
    · rw [show (Ty.pointer (scalarType x)).isPointer = true from rfl,if_pos rfl]
      cases e with
      | «variable» p y =>
        refine .bind (h.arrayAddress p y) ?_
        rintro v u ⟨hs,j,z,rfl,hv,hb⟩
        exact rest _ u ns hs (.array hv hb)
      | _ => exact .bind (.fail _ _) fun _ _ hf => (hf : False).elim
end

theorem Ready.condition (h : Ready L c s ns) (e : Expr) (hw : e.Within L.literal) :
    Ensures (condition c e) s fun v t => ∃ ns', Step L s ns t ns' ∧ Now L t ns' v .i1 := by
  unfold Lowering.condition
  refine .bind (h.expr e hw) ?_
  rintro v t ⟨ns',hs,ho⟩
  have ht := h.step hs
  refine .bind_typeOf ?_
  rcases ho.value with ⟨x,hx⟩ | hvoid
  · rw [hx.typeOf]
    cases x with
    | int =>
      refine .bind (ht.constant_int L.zero) ?_
      rintro zero u ⟨hs',hz,-,-⟩
      exact .mono ((ht.step hs').emit_value (k := (·.compare · (.icmp .ne) v zero)) (by decide) rfl
        (.icmp (hs'.now ht hx) hz) rfl rfl) fun w x hx => ⟨ns',(hs.trans hs').trans hx.1,hx.2.1⟩
    | float =>
      refine .bind (ht.constant_float ⟨0⟩) ?_
      rintro zero u ⟨hs',hz⟩
      exact .mono ((ht.step hs').emit_value (k := (·.compare · (.fcmp .ne) v zero)) (by decide) rfl
        (.fcmp (hs'.now ht hx) hz) rfl rfl) fun w x hx => ⟨ns',(hs.trans hs').trans hx.1,hx.2.1⟩
  · have hf : ¬ (t.module.typeOf v).isFloat = true := by
      rw [Ty.isVoid,beq_iff_eq] at hvoid
      simp [Ty.isFloat,hvoid]
    rw [if_neg hf,hvoid,if_pos rfl]
    exact .fail _ _

end Lowering
end CMinusF
