import CMinusF.Proofs.Lowering.Declarations
import CMinusF.Proofs.Lowering.Statements

/-! The code of functions and programs. -/
namespace CMinusF.Lowering
open List
open CMinusF.Module (Linked Added Sizes)
variable {ty : Ty} {α : Type} {f : FuncId} {slots : List Operand} {name : String} {p : Program}

section
variable {L : Law} {m m' : Module} {ns ns' : Notes} {c : Context} {s t : State}

/-- At the start of a function only storage has been reserved. -/
structure AtStart (c : Context) (s : State) : Prop where
  block : s.block = ⟨c.func,0⟩
  work : s.module.work s.block = []

theorem storable_parameterType (p : Parameter) : Storable (parameterType p) := by
  unfold parameterType
  split
  · exact .pointer _
  · exact .scalar _

theorem Ready.paramSlot (h : Ready L c s ns) (ha : AtStart c s) (ht : Storable ty)
    {Q : α → State → Prop} {f : Operand → Build α} (hf : ∀ t, Step L s ns t ns → AtStart c t →
      Place t.module t.module.instrTable.size c.func (.instr s.module.instrTable.size) ty →
      Ensures (f (.instr s.module.instrTable.size)) t Q) : Ensures
        (Lowering.emit (·.alloca · ty) >>= f) s Q := by
  obtain ⟨m,b,dead⟩ := s
  obtain ⟨rfl,hw⟩ := ha
  have hlink := m.linked_alloca (h.built.listed_iff.mp h.isOpen.1) ty
  have hparts := m.heads_append_work ⟨c.func,0⟩
  rw [hw,append_nil] at hparts
  rw [← hparts,← hw] at hlink
  have hc := Continues.alloca h.built h.isOpen h.isOpen.1 rfl ht hlink
    (h.built.mirror.alloca ⟨c.func,0⟩ ty)
    (h.built.charted.alloca h.isOpen.isTerminated ty)
  refine hf ⟨(m.alloca ⟨c.func,0⟩ ty).1,⟨c.func,0⟩,dead⟩ (h.step_of hc) ⟨rfl,?_⟩ ?_
  · exact (h.built.toLaid.parts_alloca hlink).2.trans hw
  · dsimp only
    generalize (m.alloca ⟨c.func,0⟩ ty).1 = m1 at *
    exact .slot (by rw [hlink.size]; exact Nat.lt_succ_self _) (by rw [hlink.instr_new]; rfl)
      (by rw [hlink.instr_new]; rfl)
      (by rw [hlink.instr_new]; rfl) (by rw [hlink.instr_new]; rfl)

def SlotScope (m : Module) (f : FuncId) (slots : List Operand) (scope : Scope) : Prop :=
  ∀ name x, find? name scope = some x → Place m m.instrTable.size f x.address x.type ∧
    Storable x.type ∧ x.address ∈ slots

def HasSlot (m : Module) (f : FuncId) (slot : Operand) (t : Ty) : Prop :=
  ∃ j, slot = .instr j ∧ Place m m.instrTable.size f slot t

theorem HasSlot.grow {slot : Operand} (h : HasSlot m f slot ty) (hg : Grows m ns m' ns') :
    HasSlot m' f slot ty := by
  obtain ⟨j,hj,hp⟩ := h
  exact ⟨j,hj,hg.place hg.full hp⟩

theorem Ready.declareParams (h : Ready L c s ns) (ha : AtStart c s) (ps : List Parameter) (n : Nat)
    {scope : Scope} (hsc : SlotScope s.module c.func slots scope) :
    Ensures (declareParams c scope n ps) s fun r t => Step L s ns t ns ∧ AtStart c t ∧
      SlotScope t.module c.func (slots ++ r.2) r.1 ∧
      List.Forall₂ (HasSlot t.module c.func) r.2 (ps.map parameterType) ∧
      r.2.Nodup ∧ ∀ slot ∈ r.2, ∃ j, slot = .instr j ∧ s.module.instrTable.size ≤ j := by
  induction ps generalizing s scope n slots with
  | nil =>
    unfold Lowering.declareParams
    exact .pure ⟨.refl h,ha,by simpa using hsc,.nil,nodup_nil,fun _ h => absurd h not_mem_nil⟩
  | cons p ps ih =>
    unfold Lowering.declareParams
    have hst := storable_parameterType p
    refine h.paramSlot ha hst fun t hs hat hp => .guard fun _ => ?_
    have hsc' : SlotScope t.module c.func (slots ++ [.instr s.module.instrTable.size])
        ((p.name,⟨.instr s.module.instrTable.size,parameterType p⟩) :: scope) := by
      intro name x hx
      rw [find?,lookup_cons] at hx
      split at hx
      · cases hx
        exact ⟨hp,hst,by simp⟩
      · obtain ⟨h1,h2,h3⟩ := hsc name x hx
        exact ⟨hs.continues.grows.place hs.continues.grows.full h1,h2,mem_append_left _ h3⟩
    refine .bind (ih (h.step hs) hat (n + 1) hsc') ?_
    rintro r u ⟨hs',hau,hscu,hall,hnd,hnew⟩
    have hlt : s.module.instrTable.size < t.module.instrTable.size := by cases hp; assumption
    refine .pure ⟨hs.trans hs',hau,?_,.cons ⟨_,rfl,?_⟩ hall,nodup_cons.mpr ⟨fun hmem => ?_,hnd⟩,
      fun slot hslot => ?_⟩
    · rwa [append_assoc] at hscu
    · exact hs'.continues.grows.place hs'.continues.grows.full hp
    · obtain ⟨j,hj,hle⟩ := hnew _ hmem
      cases hj
      exact absurd hle (Nat.not_le_of_lt hlt)
    · rcases mem_cons.mp hslot with rfl | hslot
      · exact ⟨_,rfl,Nat.le_refl _⟩
      · obtain ⟨j,hj,hle⟩ := hnew slot hslot
        exact ⟨j,hj,Nat.le_trans (Nat.le_of_lt hlt) hle⟩

/-- The instructions `is` store the parameters from number `n` on in the given slots. -/
inductive Stores (m : Module) (f : FuncId) : Nat → List Operand → List InstrId → Prop where
  | nil {n : Nat} : Stores m f n [] []
  | cons {n : Nat} {slot : Operand} {slots : List Operand} {i : InstrId} {is : List InstrId} :
      i < m.instrTable.size →
      (m.code.instr i).op = .store → (m.code.instr i).operands = [.arg f n,slot] →
        Stores m f (n + 1) slots is →
      Stores m f n (slot :: slots) (i :: is)

theorem Stores.grow {n : Nat} {is : List InstrId} (h : Stores m f n slots is)
    (hg : Grows m ns m' ns') : Stores m' f n slots is := by
  induction h with
  | nil => exact .nil
  | cons hlt hop hvs _ ih =>
    exact .cons (hlt.trans_le hg.fuller.instrs) (by rw [hg.instr _ hlt]; exact hop)
      (by rw [hg.instr _ hlt]; exact hvs) ih

/-- The parameters of a function are stored in slots of their own before anything else is done. -/
def StoresParams (m : Module) (f : FuncId) : Prop :=
  ∃ slots is, slots.Nodup ∧ List.Forall₂ (HasSlot m f) slots (m.func f).params ∧
    Stores m f 0 slots is ∧ is <+: m.work ⟨f,0⟩

theorem StoresParams.grow (h : StoresParams m f) (hf : f < m.funcTable.size)
    (hg : Grows m ns m' ns') :
    StoresParams m' f := by
  obtain ⟨slots,is,hnd,hslots,hs,hp⟩ := h
  refine ⟨slots,is,hnd,?_,hs.grow hg,hp.trans (hg.work _)⟩
  rw [hg.params f hf]
  exact hslots.imp fun _ _ hx => hx.grow hg

theorem Ready.storeParams (h : Ready L c s ns) (hb : s.block = ⟨c.func,0⟩) (slots : List Operand)
    (n : Nat) {ts : List Ty} (hts : (s.module.func c.func).params.drop n = ts)
    (hslots : List.Forall₂ (HasSlot s.module c.func) slots ts) :
    Ensures (storeParams c n slots) s fun _ t => Step L s ns t ns ∧
      (∀ slot ∈ slots, ∃ j, slot = .instr j ∧ Received t.module t.module.instrTable.size c.func j) ∧
      ∃ is, Stores t.module c.func n slots is ∧
        t.module.work ⟨c.func,0⟩ = s.module.work ⟨c.func,0⟩ ++ is := by
  induction slots generalizing s n ts with
  | nil =>
    exact .pure ⟨.refl h,fun _ hs => absurd hs not_mem_nil,[],.nil,(append_nil _).symm⟩
  | cons slot slots ih =>
    unfold Lowering.storeParams
    obtain ⟨ty,ts,⟨j,rfl,hp⟩,hrest,rfl⟩ := forall₂_cons_left_iff.mp hslots
    have hk : (s.module.func c.func).params[n]? = some ty := by
      rw [← head?_drop,hts]
      rfl
    have hf : Fits L s.module ns s.block s.module.instrTable.size .store .void none
        [.arg c.func n,.instr j] := by
      have hfun : s.block.func = c.func := h.func
      rw [← hfun]
      exact .storeParam (by rw [hb]) (by rw [hfun]; exact hk) (by rw [hfun]; exact hp)
    refine h.effect (by decide) rfl hf rfl fun t hs hblock hop hvs hpar hlt hwork => ?_
    have hg := hs.continues.grows
    have hts' : (t.module.func c.func).params.drop (n + 1) = ts := by
      rw [hg.params _ h.func_lt,← tail_drop,hts]
      rfl
    refine .mono (ih (h.step hs) (hblock.trans hb) (n + 1) hts' ?_) ?_
    · exact hrest.imp fun slot ty hslot => hslot.grow hg
    · rintro _ u ⟨hs',hall,is,hstores,hw⟩
      have hg' := hs'.continues.grows
      refine ⟨hs.trans hs',fun slot hslot => ?_,s.module.instrTable.size :: is,?_,?_⟩
      · rcases mem_cons.mp hslot with rfl | hslot
        · refine ⟨j,rfl,hg'.received hg'.full ?_⟩
          exact ⟨_,hlt,n,by rw [hpar,hb],hop,hvs⟩
        · exact hall slot hslot
      · exact .cons (hlt.trans_le hg'.fuller.instrs) (by rw [hg'.instr _ hlt]; exact hop)
          (by rw [hg'.instr _ hlt]; exact hvs) hstores
      · rw [hw,← hb,hwork,append_assoc,singleton_append]

/-- The code of a function's body, once its parameters have been stored, ends every block it opens.
-/
theorem Ready.functionRest (h : Ready L c s ns) (d : FunctionDecl) (hw : L.allowsAll d.body) :
    Ensures (do
      stmt c (.block d.decls d.body)
      if !(← isDead) then
        if c.result.isVoid then emit_ (·.ret · none)
        else
          let zero ← constant (if c.result.isFloat then .float ⟨0⟩ else .int 0)
          emit_ (·.ret · (some zero))) s fun _ t => ∃ ns',
            Continues L s.module ns s.block t.module ns' [] := by
  refine .bind (lowers_stmt c (.block d.decls d.body) hw s ns h) ?_
  rintro _ s1 ⟨ns1,hp,-⟩
  refine .bind_isDead ?_
  cases hd : s1.dead with
  | true => exact .pure ⟨ns1,hp.ended hd⟩
  | false =>
    have hs1 := hp.step hd
    have h1 := h.step hs1
    have hfun : (s1.module.func s1.block.func).result = c.result := by
      rw [h1.func,← h1.names.result]
    rcases h.result_cases with ⟨hr,hvoid⟩ | ⟨x,hr,hvoid⟩
    · show Ensures (if c.result.isVoid then _ else _ : Build Unit) _ _
      rw [hvoid]
      have hf : Fits L s1.module ns1 s1.block s1.module.instrTable.size .ret .void none
        (none : Option Operand).toList :=
        .retNone (hfun.trans hr)
      intro _ t ht
      cases ht
      exact ⟨ns1,hs1.continues.trans (h1.ret hf)⟩
    · show Ensures (if c.result.isVoid then _ else _ : Build Unit) _ _
      rw [hr]
      have finish : ∀ z s2, Step L s1 ns1 s2 ns1 → Now L s2 ns1 z (scalarType x) →
          Ensures (emit_ (·.ret · (some z))) s2 fun _ t => ∃ ns',
            Continues L s.module ns s.block t.module ns' [] := by
        intro z s2 hs2 hz
        have h2 := h1.step hs2
        have hf : Fits L s2.module ns1 s2.block s2.module.instrTable.size .ret .void none
          (some z).toList :=
          .ret (by rw [h2.func,← h2.names.result]; exact hr) hz
        intro _ t ht
        cases ht
        exact ⟨ns1,(hs1.trans hs2).continues.trans (h2.ret hf)⟩
      cases x with
      | int => exact .bind (h1.constant_int L.zero) fun z s2 hz => finish z s2 hz.1 hz.2.1
      | float => exact .bind (h1.constant_float ⟨0⟩) fun z s2 hz => finish z s2 hz.1 hz.2

/-- The code of a function's body stores the parameters first and ends every block it opens. -/
theorem Ready.functionBody (h : Ready L c s ns) (ha : AtStart c s) (hc : c.scopes = [])
    (d : FunctionDecl) (hparams : (s.module.func c.func).params = d.params.map parameterType)
    (hw : L.allowsAll d.body) :
    Ensures (functionBody c d) s fun _ t =>
      (∃ ns', Continues L s.module ns s.block t.module ns' []) ∧ StoresParams t.module c.func := by
  unfold Lowering.functionBody
  have hnil : SlotScope s.module c.func [] [] := fun _ _ hx => by simp [find?] at hx
  refine .bind (h.declareParams ha d.params 0 hnil) ?_
  rintro ⟨scope,slots⟩ s1 ⟨hs1,ha1,hsc,hslots,hnd,-⟩
  have h1 := h.step hs1
  refine .bind (h1.storeParams ha1.block slots 0 ?_ hslots) ?_
  · rw [drop_zero,hs1.continues.grows.params _ h.func_lt,hparams]
  rintro _ s2 ⟨hs2,hreceived,is,hstores,hwork⟩
  have h2 := h1.step hs2
  have hg2 := hs2.continues.grows
  have hparams2 : StoresParams s2.module c.func := by
    refine ⟨slots,is,hnd,?_,hstores,?_⟩
    · rw [hg2.params _ h1.func_lt,hs1.continues.grows.params _ h.func_lt,hparams]
      exact hslots.imp fun _ _ hx => hx.grow hg2
    · rw [hwork,← ha1.block,ha1.work]
      exact prefix_rfl
  have hscope : SymbolicScope s2.module c.func scope := by
    intro name x hx
    obtain ⟨hp,hst,hmem⟩ := hsc name x hx
    exact ⟨hg2.place hg2.full hp,hst,fun _ _ => hreceived _ hmem⟩
  have h2' := h2.scope hscope
  rw [hc] at h2'
  refine .mono (h2'.functionRest d hw) ?_
  rintro _ t ⟨ns',hend⟩
  exact ⟨⟨ns',(hs1.trans hs2).continues.trans hend⟩,hparams2.grow h2.func_lt hend.grows⟩

end

/-! Declarations. -/

structure Names (L : Law) (m : Module) (fs : List (String × FuncId)) : Prop where
  funcs : ∀ name g, find? name fs = some g → g < m.funcTable.size ∧ (m.func g).name = name
  named : ∀ g < m.funcTable.size, find? (m.func g).name fs = some g
  voids : ∀ g < m.funcTable.size, (m.func g).result = .void → L.voidName (m.func g).name

/-- The names declared so far, `xs` among them, stand for what is in the module, and no block is
open. -/
structure Sound (L : Law) (xs : List Builtin) (d : Declared) (ns : Notes) :
    Prop extends Names L d.module d.funcs where
  built : Built L d.module ns
  closed : ∀ b, ¬ Open d.module b
  globals : ∀ name x, find? name d.globals = some x → ∃ g, x.address = .global g ∧
    g < d.module.globalTable.size ∧
    d.module.code.contents g = x.type ∧ Storable x.type ∧ ∀ t, x.type ≠ .pointer t
  builtins : ∀ x ∈ xs, ∃ g, find? x.name d.funcs = some g ∧ (d.module.func g).layout = []
  params : ∀ g < d.module.funcTable.size, (d.module.func g).layout ≠ [] → StoresParams d.module g

def Law.declares (L : Law) : Decl → Prop
  | .variable _ => True
  | .function d => L.allowsAll d.body ∧ (d.result = none → L.voidName d.name)

theorem isSignature_function (d : FunctionDecl) :
    IsSignature (resultType d.result) (d.params.map parameterType) := by
  constructor
  · cases d.result with
    | none => exact .inl rfl
    | some x => exact .inr ⟨x,rfl⟩
  · intro t ht
    obtain ⟨p,-,rfl⟩ := mem_map.mp ht
    unfold parameterType
    split
    · exact .inr ⟨_,rfl⟩
    · exact .inl ⟨_,rfl⟩

theorem result_of_void {o : Option Scalar} (h : resultType o = .void) : o = none := by
  cases o with
  | none => rfl
  | some s => cases s <;> cases h

theorem find?_append_single {name' : String} {l : List (String × α)} {a : α} :
    find? name (l ++ [(name',a)]) = (find? name l).or (if name = name' then some a else none) := by
  rw [find?,find?,lookup_append]
  grind

section
variable {L : Law} {d d' : Declared} {ns ns' : Notes} {m n : Module} {fs : List (String × FuncId)}
  {xs : List Builtin}

theorem Names.add (h : Names L m fs) (hg : Grows m ns n ns')
    (hsize : n.funcTable.size = m.funcTable.size + 1) (hnew : find? name fs = none)
    (hname : (n.func m.funcTable.size).name = name)
    (hvoid : (n.func m.funcTable.size).result = .void → L.voidName name) :
    Names L n (fs ++ [(name,m.funcTable.size)]) := by
  have hcases : ∀ g < n.funcTable.size, g < m.funcTable.size ∨ g = m.funcTable.size := fun g hx =>
    Nat.lt_succ_iff_lt_or_eq.mp (Nat.lt_of_lt_of_eq hx hsize)
  constructor
  · intro name' g hx
    rw [find?_append_single] at hx
    rcases Option.or_eq_some_iff.mp hx with hx | ⟨-,hx⟩
    · obtain ⟨hgl,hnm⟩ := h.funcs name' g hx
      exact ⟨hgl.trans_le hg.fuller.funcs,(hg.name g hgl).trans hnm⟩
    · simp_all
  · intro g hgl
    rw [find?_append_single]
    rcases hcases g hgl with hgl | rfl
    · rw [hg.name g hgl,h.named g hgl]
      rfl
    · rw [hname,hnew,if_pos rfl]
      rfl
  · intro g hgl hr
    rcases hcases g hgl with hgl | rfl
    · rw [hg.name g hgl]
      exact h.voids g hgl ((hg.result g hgl).symm.trans hr)
    · rw [hname]
      exact hvoid hr

theorem Sound.report (h : Sound L xs d ns) (hx : .negativeIndex ∈ xs) :
    ∃ g, find? Builtin.negativeIndex.name d.funcs = some g ∧
    IsReport d.module .call [.func g] := by
  obtain ⟨g,hg,hl⟩ := h.builtins _ hx
  obtain ⟨hlt,hname⟩ := h.funcs _ g hg
  exact ⟨g,hg,rfl,g,rfl,hlt,hl,hname⟩

def bodyContext (d : Declared) (f : FunctionDecl) : Context :=
  ⟨d.module.funcTable.size,f.name,resultType f.result,d.funcs ++ [(f.name,d.module.funcTable.size)],
    d.globals,[]⟩

def bodyStart (d : Declared) (f : FunctionDecl) : State :=
  ⟨withEntry d.module f.name (resultType f.result) (f.params.map parameterType),
    ⟨d.module.funcTable.size,0⟩,false⟩

theorem functionDecl_eq_ok {f : FunctionDecl} (h : functionDecl d f = .ok d') :
    find? f.name d.funcs = none ∧
    ∃ t, functionBody (bodyContext d f) f (bodyStart d f) = .ok ((),t) ∧
      d' = ⟨t.module,d.globals,d.funcs ++ [(f.name,d.module.funcTable.size)]⟩ := by
  unfold functionDecl at h
  split at h
  · cases h
  rename_i hnew
  refine ⟨by simpa using hnew,?_⟩
  dsimp only at h
  have hid : (d.module.addFunc f.name (resultType f.result) (f.params.map parameterType)).2 =
    d.module.funcTable.size := rfl
  have hentry : ((d.module.addFunc f.name (resultType f.result)
    (f.params.map parameterType)).1.addBlock d.module.funcTable.size
      "entry").2 = ⟨d.module.funcTable.size,0⟩ := by
    show (⟨d.module.funcTable.size,
      ((d.module.addFunc f.name (resultType f.result) (f.params.map parameterType)).1.func
      d.module.funcTable.size).blocks.size⟩ : BlockId) = _
    rw [d.module.func_addFunc,if_pos rfl]
    rfl
  rw [hid,hentry] at h
  cases hb : functionBody (bodyContext d f) f (bodyStart d f) with
  | error e =>
    rw [bodyContext,bodyStart,withEntry] at hb
    rw [hb] at h
    cases h
  | ok r =>
    rw [bodyContext,bodyStart,withEntry] at hb
    rw [hb] at h
    cases h
    exact ⟨r.2,rfl,rfl⟩

theorem Sound.ready (h : Sound L xs d ns) (hneg : .negativeIndex ∈ xs) {f : FunctionDecl}
    (hw : L.declares (.function f)) :
    ∃ ns', Ready L (bodyContext d f) (bodyStart d f) ns' ∧
      AtStart (bodyContext d f) (bodyStart d f) ∧
      Grows d.module ns (bodyStart d f).module ns' ∧
      (∀ b, Open (bodyStart d f).module b ↔ b = (bodyStart d f).block) := by
  obtain ⟨ns',hb,hg,ho,hn,hwork⟩ := h.built.withEntry f.name (isSignature_function f)
  obtain ⟨h1,h2,h3,h4,h5⟩ :=
    func_withEntry d.module f.name (resultType f.result) (f.params.map parameterType)
  have hopen : ∀ b, Open (bodyStart d f).module b ↔ b = (bodyStart d f).block := fun b =>
    (ho b).trans ⟨fun hx => hx.resolve_left (h.closed b),.inr⟩
  have hself := (hopen _).mpr rfl
  have hlt : d.module.funcTable.size < (bodyStart d f).module.funcTable.size := hb.func_lt hself.1
  refine ⟨ns',⟨hb,hself,rfl,rfl,?_,.inl rfl,?_⟩,⟨rfl,hwork⟩,hg,hopen⟩
  · show (ns' ⟨d.module.funcTable.size,0⟩).role ≠ .report
    rw [hn]
    exact Role.noConfusion
  have hfind : ∀ name g, find? name (bodyContext d f).funcs = some g →
      find? name d.funcs = some g ∨ (name = f.name ∧ g = d.module.funcTable.size) := by
    intro name g hx
    rw [bodyContext,find?_append_single] at hx
    cases hc : find? name d.funcs with
    | some g' =>
      rw [hc] at hx
      exact .inl hx
    | none => simp_all
  have hold : ∀ name g, find? name d.funcs = some g →
      find? name (bodyContext d f).funcs = some g := by
    intro name g hx
    rw [bodyContext,find?_append_single,hx]
    rfl
  constructor
  case entry => exact hself.1
  case result => exact h2.symm
  case funcs =>
    intro name g hx
    rcases hfind name g hx with hx | ⟨-,rfl⟩
    · exact Nat.lt_of_lt_of_le (h.funcs name g hx).1 hg.fuller.funcs
    · exact hlt
  case voids =>
    intro name g hx hr
    rcases hfind name g hx with hx | ⟨rfl,rfl⟩
    · obtain ⟨hgl,hname⟩ := h.funcs name g hx
      rw [← hname]
      exact h.voids g hgl ((hg.result g hgl).symm.trans hr)
    · exact hw.2 (result_of_void (h2.symm.trans hr))
  case report =>
    obtain ⟨g,hx,hr⟩ := h.report hneg
    exact ⟨g,hold _ g hx,hg.isReport hr⟩
  case symbols =>
    intro name x hx
    rw [show (bodyContext d f).scopes ++ [(bodyContext d f).globals] = [d.globals]
      from rfl,findSome?_singleton] at hx
    obtain ⟨g,ha,hgl,hc,hs,hp⟩ := h.globals name x hx
    refine ⟨?_,hs,fun t ht => absurd ht (hp t)⟩
    rw [ha]
    exact .global (hgl.trans_le hg.fuller.globals) ((hg.contents hgl).trans hc)

theorem Sound.functionDecl (h : Sound L xs d ns) (hneg : .negativeIndex ∈ xs) {f : FunctionDecl}
    (hw : L.declares (.function f)) (hf : functionDecl d f = .ok d') :
    ∃ ns', Sound L xs d' ns' ∧ Grows d.module ns d'.module ns' := by
  obtain ⟨hnew,t,hbody,rfl⟩ := functionDecl_eq_ok hf
  obtain ⟨ns1,hr,ha,hg1,hopen⟩ := h.ready hneg hw
  obtain ⟨h1,h2,h3,-⟩ := func_withEntry d.module f.name (resultType f.result)
    (f.params.map parameterType)
  obtain ⟨⟨ns2,hc⟩,hstores⟩ := hr.functionBody ha rfl f h3 hw.1 () t hbody
  have hg := hg1.trans hc.grows
  have hlt : d.module.funcTable.size < (bodyStart d f).module.funcTable.size := hr.func_lt
  have hname : (t.module.func d.module.funcTable.size).name = f.name :=
    (hc.grows.name _ hlt).trans h1
  have hres : (t.module.func d.module.funcTable.size).result = resultType f.result :=
    (hc.grows.result _ hlt).trans h2
  have hopenEnd : ∀ b, ¬ Open t.module b := by
    intro b hb
    rcases (hc.opened b).mp hb with ⟨hb,hne⟩ | hb
    · exact hne ((hopen b).mp hb)
    · cases hb
  have hsize : t.module.funcTable.size = d.module.funcTable.size + 1 :=
    hc.funcs.trans (joins_withEntry d.module _ _ _).funcTable
  refine ⟨ns2,?_,hg⟩
  constructor
  case toNames =>
    exact h.toNames.add hg hsize hnew hname fun hr => hw.2 (result_of_void (hres.symm.trans hr))
  case built => exact hc.built
  case closed => exact hopenEnd
  case globals =>
    intro name x hx
    obtain ⟨g,hax,hgl,hcx,hs,hp⟩ := h.globals name x hx
    exact ⟨g,hax,hgl.trans_le hg.fuller.globals,(hg.contents hgl).trans hcx,hs,hp⟩
  case builtins =>
    intro x hx
    obtain ⟨g,hgx,hl⟩ := h.builtins x hx
    refine ⟨g,?_,(hg.declared g (h.funcs _ g hgx).1).mpr hl⟩
    rw [find?_append_single,hgx]
    rfl
  case params =>
    intro g hgl hlay
    rcases Nat.lt_succ_iff_lt_or_eq.mp (Nat.lt_of_lt_of_eq hgl hsize) with hgl | rfl
    · exact (h.params g hgl fun hl => hlay ((hg.declared g hgl).mpr hl)).grow hgl hg
    · exact hstores

theorem Sound.globalDecl (h : Sound L xs d ns) {x : VariableDecl} (hx : globalDecl d x = .ok d') :
    Sound L xs d' ns ∧ Grows d.module ns d'.module ns := by
  unfold Lowering.globalDecl at hx
  split at hx
  · cases hx
  rename_i hnew
  have ht : (∃ s, variableType x = scalarType s) ∨
      ∃ k s, variableType x = .array k (scalarType s) := by
    unfold variableType
    split
    · exact .inr ⟨_,_,rfl⟩
    · exact .inl ⟨_,rfl⟩
  obtain ⟨hb,hg,hcont,hlt⟩ := h.built.addGlobal x.name ht
  have hd' : d' = ⟨(d.module.addGlobal x.name (variableType x)).1,
    (x.name,⟨.global d.module.globalTable.size,variableType x⟩) :: d.globals,
    d.funcs⟩ := (Except.ok.inj hx).symm
  have hopen : ∀ b, ¬ Open (d.module.addGlobal x.name (variableType x)).1 b := h.closed
  rw [hd']
  refine ⟨?_,hg⟩
  constructor
  case toNames => exact ⟨h.funcs,h.named,h.voids⟩
  case built => exact hb
  case closed => exact h.closed
  case globals =>
    intro name y hy
    rw [find?,lookup_cons] at hy
    split at hy
    · cases hy
      refine ⟨d.module.globalTable.size,rfl,hlt,congrArg Global.contents hcont,?_,fun t => ?_⟩
      · rcases ht with ⟨s,ht⟩ | ⟨k,s,ht⟩
        · exact ht ▸ .scalar s
        · exact ht ▸ .array k s
      · rcases ht with ⟨s,ht⟩ | ⟨k,s,ht⟩
        · rw [ht]
          cases s <;> exact Ty.noConfusion
        · rw [ht]
          exact Ty.noConfusion
    · obtain ⟨g,hax,hgl,hcx,hs,hp⟩ := h.globals name y hy
      exact ⟨g,hax,hgl.trans_le hg.fuller.globals,(hg.contents hgl).trans hcx,hs,hp⟩
  case builtins => exact h.builtins
  case params => exact fun g hgl hlay => (h.params g hgl hlay).grow hgl hg

theorem isSignature_builtin (x : Builtin) : IsSignature x.result x.params := by
  refine ⟨?_,?_⟩
  · cases x
    case input => exact .inr ⟨.int,rfl⟩
    all_goals exact .inl rfl
  · cases x
    case output => exact fun t ht => .inl ⟨.int,mem_singleton.mp ht⟩
    case outputFloat => exact fun t ht => .inl ⟨.float,mem_singleton.mp ht⟩
    all_goals exact fun t ht => absurd ht not_mem_nil

theorem Sound.builtin (h : Sound L xs d ns) (x : Builtin) (hnew : find? x.name d.funcs = none)
    (hvoid : x.result = .void → L.voidName x.name) :
    ∃ ns', Sound L (x :: xs) ⟨(d.module.addFunc x.name x.result x.params).1,d.globals,
      d.funcs ++ [(x.name,d.module.funcTable.size)]⟩ ns' := by
  obtain ⟨ns',hb,hg,ho⟩ := h.built.addFunc x (isSignature_builtin x)
  have hj := joins_addFunc d.module x.name x.result x.params
  have hfunc := d.module.func_addFunc x.name x.result x.params d.module.funcTable.size
  rw [if_pos rfl] at hfunc
  generalize (d.module.addFunc x.name x.result x.params).1 = n at *
  refine ⟨ns',?_⟩
  constructor
  case toNames =>
    exact h.toNames.add hg hj.funcTable hnew (by rw [hfunc]) fun hr =>
      hvoid (by rw [hfunc] at hr; exact hr)
  case built => exact hb
  case closed => exact fun b hx => h.closed b ((ho b).mp hx)
  case globals =>
    intro name y hy
    obtain ⟨g,hax,hgl,hcx,hs,hp⟩ := h.globals name y hy
    exact ⟨g,hax,hgl.trans_le hg.fuller.globals,(hg.contents hgl).trans hcx,hs,hp⟩
  case builtins =>
    intro y hy
    by_cases hxy : y = x
    · subst hxy
      refine ⟨d.module.funcTable.size,?_,by rw [hfunc]⟩
      rw [find?_append_single,hnew,if_pos rfl]
      rfl
    · obtain ⟨g,hgx,hl⟩ := h.builtins y ((mem_cons.mp hy).resolve_left hxy)
      refine ⟨g,?_,(hg.declared g (h.funcs _ g hgx).1).mpr hl⟩
      rw [find?_append_single,hgx]
      rfl
  case params =>
    intro g hgl hlay
    rcases Nat.lt_succ_iff_lt_or_eq.mp (Nat.lt_of_lt_of_eq hgl hj.funcTable) with hgl | rfl
    · exact (h.params g hgl fun hl => hlay ((hg.declared g hgl).mpr hl)).grow hgl hg
    · exact absurd (by rw [hfunc]) hlay

/-- The law holds of the functions that every program may call. -/
def Law.builtins (L : Law) : Prop := ∀ x : Builtin, x.result = .void → L.voidName x.name

theorem Sound.empty (name : String) (ns : Notes) : Sound L [] ⟨.empty name,[],[]⟩ ns where
  funcs _ _ h := by cases h
  named g h := absurd h (Nat.not_lt_zero g)
  voids g h := absurd h (Nat.not_lt_zero g)
  built := .empty name ns
  closed b hb := by
    have hf : (Module.empty name).func b.func = default := by simp [Module.empty,Module.func]
    have hl := hb.1
    rw [Module.Listed,hf] at hl
    cases hl
  globals _ _ h := by cases h
  builtins _ h := by cases h
  params g h := absurd h (Nat.not_lt_zero g)

theorem Sound.declareBuiltins (h : Sound L xs d ns) (hL : L.builtins) (ys : List Builtin)
    (hnew : ∀ y ∈ ys, find? y.name d.funcs = none) (hnd : (ys.map Builtin.name).Nodup) :
    ∃ ns', Sound L (ys.reverse ++ xs) (ys.foldl (fun s b =>
      let (m,f) := s.module.addFunc b.name b.result b.params
      ⟨m,s.globals,s.funcs ++ [(b.name,f)]⟩) d) ns' := by
  induction ys generalizing xs d ns with
  | nil => exact ⟨ns,h⟩
  | cons y ys ih =>
    rw [map_cons,nodup_cons] at hnd
    obtain ⟨ns1,h1⟩ := h.builtin y (hnew y mem_cons_self) (hL y)
    rw [reverse_cons,append_assoc]
    refine ih h1 (fun z hz => ?_) hnd.2
    have hne : z.name ≠ y.name := fun he => hnd.1 (he ▸ mem_map_of_mem hz)
    rw [find?_append_single,hnew z (mem_cons_of_mem _ hz),if_neg hne]
    rfl

theorem Sound.start (hL : L.builtins) (name : String) :
    ∃ ns xs, Sound L xs (.start (.empty name)) ns ∧ ∀ x, x ∈ xs := by
  obtain ⟨ns,h⟩ := (Sound.empty name fun _ => ⟨none,.plain⟩).declareBuiltins hL Builtin.all
    (fun _ _ => rfl) (by decide)
  exact ⟨ns,_,h,fun x => by cases x <;> decide⟩

theorem Sound.decl (h : Sound L xs d ns) (hneg : .negativeIndex ∈ xs) {x : Decl} (hw : L.declares x)
    (hx : decl d x = .ok d') :
    ∃ ns', Sound L xs d' ns' ∧ Grows d.module ns d'.module ns' := by
  cases x with
  | «variable» x => exact ⟨ns,h.globalDecl hx⟩
  | function f => exact h.functionDecl hneg hw hx

theorem Sound.decls (h : Sound L xs d ns) (hneg : .negativeIndex ∈ xs) {ds : List Decl}
    (hw : ∀ x ∈ ds, L.declares x) (hx : ds.foldlM Lowering.decl d = .ok d') :
    ∃ ns', Sound L xs d' ns' ∧ Grows d.module ns d'.module ns' := by
  induction ds generalizing d ns with
  | nil =>
    cases hx
    exact ⟨ns,h,.refl _ _⟩
  | cons x ds ih =>
    rw [foldlM_cons] at hx
    cases hd : Lowering.decl d x with
    | error e =>
      rw [hd] at hx
      cases hx
    | ok e =>
      rw [hd] at hx
      obtain ⟨ns1,h1,hg1⟩ := h.decl hneg (hw x mem_cons_self) hd
      obtain ⟨ns2,h2,hg2⟩ := ih h1 (fun y hy => hw y (mem_cons_of_mem _ hy)) hx
      exact ⟨ns2,h2,hg1.trans hg2⟩

/-- A program is lowered to a module as it should be, with no block left open. -/
theorem sound_of_lower (hL : L.builtins) (hw : ∀ x ∈ p.decls, L.declares x)
    (h : p.lower (.empty name) = .ok m) : ∃ ns xs d, Sound L xs d ns ∧ d.module = m := by
  obtain ⟨ns,xs,hs,hall⟩ := Sound.start hL name
  unfold Program.lower at h
  cases hd : p.decls.foldlM decl (.start (.empty name)) with
  | error e =>
    rw [hd] at h
    cases h
  | ok d =>
    rw [hd] at h
    cases h
    obtain ⟨ns',hs',-⟩ := hs.decls (hall _) hw hd
    exact ⟨ns',xs,d,hs',rfl⟩

theorem built_of_lower (hL : L.builtins) (hw : ∀ x ∈ p.decls, L.declares x)
    (h : p.lower (.empty name) = .ok m) : ∃ ns, Built L m ns ∧ ∀ b, ¬ Open m b := by
  obtain ⟨ns,xs,d,hs,rfl⟩ := sound_of_lower hL hw h
  exact ⟨ns,hs.built,hs.closed⟩

end
end CMinusF.Lowering
