import CMinusF.Proofs.Promotion.Enter

/-! Runs before and after promotion. The code before promotion sets the pace: the other side waits
while it reads and writes locals. -/
namespace CMinusF
open Run List
variable {s : Pair} {s₀ : Origin} {ι : Pairing} {w w' : World} {a a' : Activation}
  {pre rest : List InstrId} {V : InstrId → Option Operand} {obj : InstrId →
    Nat} {i : InstrId} {m m' : Module}

structure PromotesAll (m m' : Module) : Prop where
  name : ∀ g ∈ m.funcs, (m'.func g).name = (m.func g).name
  params : ∀ g ∈ m.funcs, (m'.func g).params = (m.func g).params
  layout : ∀ g ∈ m.funcs, (m'.func g).layout = (m.func g).layout
  defined : ∀ g ∈ m.funcs, (m.func g).isDeclaration = false → ∃ e P, Runnable m g e ∧
    Promotes m m' g e P

/-- What an instruction that is kept does on the two sides. -/
inductive ActionRel (s : Pair) (s₀ : Origin) (ι : Pairing) (w w' : World) (obj : InstrId → Nat)
    (i : InstrId) :
    Action → Action → Prop where
  | done {v v' : Datum} : v.Rel ι v' → ActionRel s s₀ ι w w' obj i (.done v) (.done v')
  | fault {ι₁ : Pairing} {w₁ w₁' : World} (e : Fault) : w₁.Rel ι₁ w₁' → w₁'.calls = w₁.calls →
      Evolves ι ι₁ w.heap w'.heap w₁.heap w₁'.heap →
        ActionRel s s₀ ι w w' obj i (.fault w₁ e) (.fault w₁' e)
  | go {ι₁ : Pairing} {w₁ w₁' : World} {a₁ a₁' : Activation} {pre₁ : List InstrId} {V₁ : InstrId →
      Option Operand} :
      Match s s₀ ι₁ w₁ a₁ w₁' a₁' pre₁ V₁ obj →
        ActionRel s s₀ ι w w' obj i (.go w₁ a₁) (.go w₁' a₁')
  | call {g : FuncId} {args args' : List Datum} : (s.before.instr i).op = .call →
      g ∈ s.before.funcs →
      (s.before.func g).isDeclaration = false →
        (∀ n, (args.getD n .zero).Rel ι (args'.getD n .zero)) →
      ActionRel s s₀ ι w w' obj i
        (.call (countCall w (s.before.func g).name) (activation s.before w.globals g args))
        (.call (countCall w' (s.before.func g).name) (activation s.after w'.globals g args'))

namespace Match

theorem countCall_rel (hw : w.Rel ι w') (name : String) :
    (countCall w name).Rel ι (countCall w' name) :=
  ⟨hw.heap,hw.globals,hw.input,hw.output⟩

theorem getD_map_rel {vs : List Operand} {g g' : Operand → Datum}
    (h : ∀ v ∈ vs, (g v).Rel ι (g' v)) (n : Nat) :
    ((vs.map g).getD n .zero).Rel ι ((vs.map g').getD n .zero) := by
  simp only [getD_eq_getElem?_getD,getElem?_map]
  cases hv : vs[n]? with
  | none => exact .zero
  | some v => exact h v (mem_of_getElem? hv)

theorem step (hs : s.Ok) (hall : PromotesAll s.before s.after)
    (h : Match s s₀ ι w a w' a' pre V obj) (hr : a.rest = i :: rest)
    (hk : s.plan.keeps s.before i = true) :
    ActionRel s s₀ ι w w' obj i (action s.before w a i) (action s.after w' a' i) := by
  have hp : Point s a.block pre (i :: rest) V := hr ▸ h.point
  have hi := hp.mem_instrs hs
  have hbl := hp.mem_layout hs
  obtain ⟨hop,htype,hobj,hops⟩ := hs.promotes.instr i hi hk
  have hev : ∀ v ∈ s.before.operands i,
      (a.eval s.before w.globals v).Rel ι
        (a'.eval s.after w'.globals (s.plan.subst s.before v)) := by
    intro v hv
    rw [h.globals,h.globals']
    exact h.operand_rel hs hr hk hv
  by_cases hret : (s.before.instr i).op = .ret
  · rw [action_ret hret,action_ret (hop.trans hret)]
    refine .done ?_
    rw [← Module.operands,← Module.operands,hops,List.head?_map,Option.map_map]
    cases hv : (s.before.operands i).head? with
    | none => exact .zero
    | some v => exact hev v (mem_of_mem_head? (by simp [hv]))
  by_cases hbr : (s.before.instr i).op = .br
  · have hend : a.rest = [i] := by rw [hr,hp.rest_eq_nil hs (by simp [hbr,Opcode.isTerminator])]
    have hgo : ∀ c ∈ s.before.succs a.block, ActionRel s s₀ ι w w' obj i
        (.go w (a.enter s.before w.globals (some a.block) c))
        (.go w' (a'.enter s.after w'.globals (some a'.block) c)) := by
      intro c hc
      have := h.enter hs hend hbr hc
      rw [← h.globals,← h.globals'] at this
      exact .go this
    rw [action_br hbr,action_br (hop.trans hbr),← Module.operands,← Module.operands,hops]
    rcases hs.runnable.branch a.block hbl i hp.mem_body hbr with ⟨c,hc,ho⟩ | ⟨v,c,hc,d,hd,ho⟩
    · rw [ho]
      exact hgo c hc
    · have hint := (hev v (by simp [ho])).int
      rw [ho]
      simp only [map_cons,map_nil,branchTarget,Plan.subst_block,← hint]
      by_cases hodd : isOdd (a.eval s.before w.globals v).int
      · simpa only [hodd,↓reduceIte] using hgo c hc
      · simpa only [hodd,Bool.false_eq_true,↓reduceIte] using hgo d hd
  have hterm : (s.before.instr i).op.isTerminator = false := by
    cases hop' : (s.before.instr i).op <;> simp_all [Opcode.isTerminator]
  by_cases hcall : (s.before.instr i).op = .call
  · obtain ⟨g,vs,ho,hg⟩ := hs.runnable.call i hi hcall
    have hcallee : s.before.callee? i = some g := by simp only [Module.callee?,hcall,ho]
    have hcallee' : s.after.callee? i = some g := by
      simp only [Module.callee?,hop.trans hcall,hops,ho,map_cons,Plan.subst_func]
    have hargs : s.before.callArgs i = vs := by simp [Module.callArgs,hcall,ho]
    have hargs' : s.after.callArgs i = vs.map (s.plan.subst s.before) := by
      simp [Module.callArgs,hop.trans hcall,hops,ho]
    have hrel : ∀ n, ((vs.map (a.eval s.before w.globals)).getD n .zero).Rel ι
        (((vs.map (s.plan.subst s.before)).map (a'.eval s.after w'.globals)).getD n .zero) := by
      rw [map_map]
      exact getD_map_rel fun v hv => hev v (by simp [ho,hv])
    have hdecl : (s.after.func g).isDeclaration = (s.before.func g).isDeclaration := by
      simp only [Func.isDeclaration,hall.layout g hg]
    rw [action_call hcall,action_call (hop.trans hcall),hcallee,hcallee',hargs,hargs']
    simp only [hdecl,hall.name g hg]
    cases hd : (s.before.func g).isDeclaration with
    | true =>
      obtain ⟨hw,he,hc,hevo,hgl,hgl'⟩ := builtin_rel (countCall_rel h.world (s.before.func g).name)
        (by simp only [countCall,h.calls]) (s.before.func g).name (hrel 0)
      simp only [↓reduceIte]
      revert hw he hc hevo hgl hgl'
      generalize builtin (s.before.func g).name (vs.map (a.eval s.before w.globals)) _ = r
      generalize builtin (s.before.func g).name _ (countCall w' (s.before.func g).name) = r'
      obtain ⟨w1,x⟩ := r
      obtain ⟨w1',x'⟩ := r'
      intro hw he hc hevo hgl hgl'
      dsimp only at hw he hc hevo hgl hgl'
      cases he with
      | ok hv => exact .go (h.advance hs hr hk hterm hw hc hgl hgl' hevo hv)
      | error e => exact .fault e hw hc hevo
    | false => exact .call hcall hg hd hrel
  · rw [action_execute hret hbr hcall,
      action_execute (by rw [hop]; exact hret) (by rw [hop]; exact hbr) (by rw [hop]; exact hcall)]
    have hexe := Operation.execute_rel h.world.heap (s.before.instr i) (s.after.instr i)
      ((s.before.operands i).map (a.eval s.before w.globals))
      ((s.after.operands i).map (a'.eval s.after w'.globals)) hop hobj (by simp [hops])
      (by rw [hops,map_map]; exact getD_map_rel hev)
    revert hexe
    rw [Module.operands,Module.operands]
    generalize Operation.execute (s.before.instr i) _ w.heap = r
    generalize Operation.execute (s.after.instr i) _ w'.heap = r'
    obtain ⟨h1,x⟩ := r
    obtain ⟨h1',x'⟩ := r'
    rintro ⟨ι1,hrel,hevo,he⟩
    dsimp only at hrel hevo he
    cases he with
    | ok hv =>
      exact .go (h.advance hs hr hk hterm (h.world.withHeap hrel hevo.mono) h.calls rfl rfl hevo hv)
    | error e => exact .fault e (h.world.withHeap hrel hevo.mono) h.calls hevo

theorem wait (hs : s.Ok) (h : Match s s₀ ι w a w' a' pre V obj) (hr : a.rest = i :: rest)
    (hk : s.plan.keeps s.before i = false) :
    ∃ w1 a1 obj1, action s.before w a i = .go w1 a1 ∧ a1.rest = rest ∧
      Match s s₀ ι w1 a1 w' a' (pre ++ [i]) (s.plan.after s.before V i) obj1 := by
  have hcase := s.plan.keeps_or s.before i
  rw [hk] at hcase
  rcases hcase.resolve_left (by simp) with hp | ⟨x,hx⟩ | ⟨x,hx⟩
  · obtain ⟨w1,d,obj1,ha,hm⟩ := h.alloca hs hr hp
    exact ⟨w1,_,obj1,ha,Activation.rest_advance hr d,hm⟩
  · obtain ⟨d,ha,hm⟩ := h.load hs hr hx
    exact ⟨w,_,obj,ha,Activation.rest_advance hr d,hm⟩
  · obtain ⟨w1,d,ha,hm⟩ := h.store hs hr hx
    exact ⟨w1,_,obj,ha,Activation.rest_advance hr d,hm⟩

theorem rest_of_keeps (h : Match s s₀ ι w a w' a' pre V obj) (hr : a.rest = i :: rest)
    (hk : s.plan.keeps s.before i = true) : a'.rest = i :: rest.filter (s.plan.keeps s.before) := by
  rw [h.rest,hr,filter_cons_of_pos hk]

theorem step_of (hs : s.Ok) (hall : PromotesAll s.before s.after)
    (h : Match s s₀ ι w a w' a' pre V obj) (hr : a.rest = i :: rest) {x : Action}
    (hact : action s.before w a i = x) (hx : ∀ w1 a1, x ≠ .go w1 a1) :
    s.plan.keeps s.before i = true ∧ ∃ x', action s.after w' a' i = x' ∧
      ActionRel s s₀ ι w w' obj i x x' := by
  cases hk : s.plan.keeps s.before i with
  | false =>
    obtain ⟨_,_,_,hgo,_⟩ := h.wait hs hr hk
    exact absurd (hact.symm.trans hgo) (hx _ _)
  | true => exact ⟨rfl,_,rfl,hact ▸ h.step hs hall hr hk⟩

theorem callee (hall : PromotesAll s.before s.after) {g : FuncId} (hg : g ∈ s.before.funcs)
    (hd : (s.before.func g).isDeclaration = false) (h : Match s s₀ ι w a w' a' pre V obj)
    {args args' : List Datum} (hargs : ∀ n, (args.getD n .zero).Rel ι (args'.getD n .zero)) :
    ∃ t : Pair, t.before = s.before ∧ t.after = s.after ∧ t.Ok ∧ ∃ pre V obj,
      Match t ⟨w.heap,w'.heap,ι⟩ ι (countCall w (s.before.func g).name)
      (activation s.before w.globals g args)
        (countCall w' (s.before.func g).name) (activation s.after w'.globals g args')
          pre V obj := by
  obtain ⟨e,P,hF,hP⟩ := hall.defined g hg hd
  let t : Pair := ⟨s.before,s.after,g,e,P,w.globals,w'.globals⟩
  have ht : t.Ok := ⟨hF,hP⟩
  have hm := Match.start ht (countCall_rel h.world (s.before.func g).name)
    (by simp only [countCall,h.calls]) rfl rfl hargs
  exact ⟨t,rfl,rfl,ht,_,_,_,hm⟩

end Match

/-- The end of a run that corresponds to another one begun at `s₀`. -/
def EndsLike (m' : Module) (s₀ : Origin) (w' : World) (a' : Activation) (k : Nat) (w₁ : World)
    (x : Except Fault Datum) : Prop :=
  ∃ k' ≤ k, ∃ ι₁ w₁' x', Ends m' w' a' k' w₁' x' ∧ w₁.Rel ι₁ w₁' ∧ w₁'.calls = w₁.calls ∧
    Evolves s₀.pairing ι₁ s₀.heap s₀.heap' w₁.heap w₁'.heap ∧ EndRel ι₁ x x'

/-- A run that ends before promotion ends in the same way after it, and not later. -/
theorem PromotesAll.ends_after (hall : PromotesAll m m') {w1 : World} {k : Nat}
    {x : Except Fault Datum} (h : Ends m w a k w1 x) (hb : s.before = m)
    (ha : s.after = m') (hs : s.Ok) (hm : Match s s₀ ι w a w' a' pre V obj) :
    EndsLike m' s₀ w' a' k w1 x := by
  induction h generalizing s s₀ ι w' a' pre V obj with
  | stuck hr => exact absurd hr hm.point.rest_ne
  | @done w a i r v hr hact =>
    subst hb ha
    obtain ⟨hk,_,hact',hst⟩ := hm.step_of hs hall hr hact nofun
    cases hst with
    | done hv =>
      exact ⟨1,Nat.le_refl _,ι,w',_,.done (hm.rest_of_keeps hr hk) hact',hm.world,hm.calls,
        hm.evolves,.ok hv⟩
  | @fault w a i r w1 e hr hact =>
    subst hb ha
    obtain ⟨hk,_,hact',hst⟩ := hm.step_of hs hall hr hact nofun
    cases hst with
    | fault _ hw hc hev =>
      exact ⟨1,Nat.le_refl _,_,_,_,.fault (hm.rest_of_keeps hr hk) hact',hw,hc,
        hm.evolves.trans hev,.error e⟩
  | @go w a i r w1 a1 k w2 x hr hact _ ih =>
    subst hb ha
    cases hk : s.plan.keeps s.before i with
    | false =>
      obtain ⟨w1,a1,obj1,hgo,_,hm1⟩ := hm.wait hs hr hk
      rw [hact] at hgo
      cases hgo
      obtain ⟨k',hk',h⟩ := ih rfl rfl hs hm1
      exact ⟨k',by omega,h⟩
    | true =>
      have hst := hm.step hs hall hr hk
      rw [hact] at hst
      generalize hact' : action s.after w' a' i = x' at hst
      cases hst with
      | go hm1 =>
        obtain ⟨k',hk',ι2,w2',x',hend,h⟩ := ih rfl rfl hs hm1
        exact ⟨k'+1,by omega,ι2,w2',x',.go (hm.rest_of_keeps hr hk) hact' hend,h⟩
  | @call w a i r w1 c k w2 v l w3 x hr hact hcallee _ ih ih' =>
    subst hb ha
    obtain ⟨hk,_,hact',hst⟩ := hm.step_of hs hall hr hact nofun
    cases hst with
    | call hop hg hd hargs =>
      obtain ⟨t,htb,hta,ht,pre1,V1,obj1,hm1⟩ := hm.callee hall hg hd hargs
      obtain ⟨k',hk',ι2,w2',x',hend,hw2,hc2,hev2,hx⟩ := ih htb hta ht hm1
      cases hx with
      | @ok v v' hv =>
        have hm2 := hm.advance hs hr hk (by simp [hop,Opcode.isTerminator]) hw2 hc2 hcallee.globals
          hend.globals
          hev2 hv
        obtain ⟨l',hl',ι3,w3',x',hend',h⟩ := ih' rfl rfl hs hm2
        exact ⟨k'+l'+1,by omega,ι3,w3',x',.call (hm.rest_of_keeps hr hk) hact' hend hend',h⟩
  | @callFault w a i r w1 c k w2 e hr hact _ ih =>
    subst hb ha
    obtain ⟨hk,_,hact',hst⟩ := hm.step_of hs hall hr hact nofun
    cases hst with
    | call hop hg hd hargs =>
      obtain ⟨t,htb,hta,ht,pre1,V1,obj1,hm1⟩ := hm.callee hall hg hd hargs
      obtain ⟨k',hk',ι2,w2',x',hend,hw2,hc2,hev2,hx⟩ := ih htb hta ht hm1
      cases hx with
      | error e =>
        exact ⟨k'+1,by omega,ι2,w2',_,.callFault (hm.rest_of_keeps hr hk) hact' hend,hw2,hc2,
          hm.evolves.trans hev2,.error e⟩

theorem Match.wait_all (hs : s.Ok)
    (h : Match s s₀ ι w a w' a' pre V obj) (hr : a.rest = rest) :
    ∃ n w1 a1 pre1 V1 obj1 i r, (∀ {k w2 x}, Ends s.before w1 a1 k w2 x →
      Ends s.before w a (k + n) w2 x) ∧
      Match s s₀ ι w1 a1 w' a' pre1 V1 obj1 ∧ a1.rest = i :: r ∧
      s.plan.keeps s.before i = true := by
  induction rest generalizing w a pre V obj with
  | nil => exact absurd hr h.point.rest_ne
  | cons i rest ih =>
    cases hk : s.plan.keeps s.before i with
    | true => exact ⟨0,w,a,pre,V,obj,i,rest,id,h,hr,hk⟩
    | false =>
      obtain ⟨w1,a1,obj1,hact,hr1,hm1⟩ := h.wait hs hr hk
      obtain ⟨n,w2,a2,pre2,V2,obj2,j,r,hends,hm2,hr2,hk2⟩ := ih hm1 hr1
      exact ⟨n+1,w2,a2,pre2,V2,obj2,j,r,fun h => .go hr hact (hends h),hm2,hr2,hk2⟩

/-- Where the side before promotion has caught up, it does what the other one does. -/
theorem Match.step_before
    {r : List InstrId} (hs : s.Ok) (hall : PromotesAll s.before s.after)
    (h : Match s s₀ ι w a w' a' pre V obj) (hr : a'.rest = i :: r) {x' : Action}
    (hact : action s.after w' a' i = x') : ∃ n w1 a1 pre1 V1 obj1 r1 x,
      (∀ {k w2 x}, Ends s.before w1 a1 k w2 x → Ends s.before w a (k + n) w2 x) ∧
      Match s s₀ ι w1 a1 w' a' pre1 V1 obj1 ∧ a1.rest = i :: r1 ∧ s.plan.keeps s.before i = true ∧
      action s.before w1 a1 i = x ∧ ActionRel s s₀ ι w1 w' obj1 i x x' := by
  obtain ⟨n,w1,a1,_,_,_,j,r1,hends,hm1,hr1,hk⟩ := h.wait_all hs rfl
  obtain ⟨rfl,_⟩ := cons.inj (hr.symm.trans (hm1.rest_of_keeps hr1 hk))
  exact ⟨n,w1,a1,_,_,_,r1,_,hends,hm1,hr1,hk,rfl,hact ▸ hm1.step hs hall hr1 hk⟩

theorem PromotesAll.ends_before (hall : PromotesAll m m') {w1' : World}
    {k' : Nat} {x' : Except Fault Datum} (h : Ends m' w' a' k' w1' x')
    (hb : s.before = m) (ha : s.after = m') (hs : s.Ok) (hm : Match s s₀ ι w a w' a' pre V obj) :
    ∃ k w1 x, Ends m w a k w1 x := by
  induction h generalizing s s₀ ι w a pre V obj with
  | stuck hr =>
    obtain ⟨_,_,_,_,_,_,i,r,_,hm1,hr1,hk⟩ := hm.wait_all hs rfl
    rw [hm1.rest_of_keeps hr1 hk] at hr
    cases hr
  | @done w' a' i r v hr hact =>
    subst hb ha
    obtain ⟨n,w1,a1,_,_,_,_,_,hends,hm1,hr1,hk,hact',hst⟩ := hm.step_before hs hall hr hact
    cases hst with
    | done => exact ⟨_,_,_,hends (.done hr1 hact')⟩
  | @fault w' a' i r w1' e hr hact =>
    subst hb ha
    obtain ⟨n,w1,a1,_,_,_,_,_,hends,hm1,hr1,hk,hact',hst⟩ := hm.step_before hs hall hr hact
    cases hst with
    | fault => exact ⟨_,_,_,hends (.fault hr1 hact')⟩
  | @go w' a' i r w1' a1' k w2' x hr hact _ ih =>
    subst hb ha
    obtain ⟨n,w1,a1,_,_,_,_,_,hends,hm1,hr1,hk,hact',hst⟩ := hm.step_before hs hall hr hact
    cases hst with
    | go hm2 =>
      obtain ⟨_,_,_,h⟩ := ih rfl rfl hs hm2
      exact ⟨_,_,_,hends (.go hr1 hact' h)⟩
  | @call w' a' i r w1' c' k w2' v' l w3' x hr hact hcallee _ ih ih' =>
    subst hb ha
    obtain ⟨n,w1,a1,_,_,_,_,_,hends,hm1,hr1,hk,hact',hst⟩ := hm.step_before hs hall hr hact
    cases hst with
    | call hop hg hd hargs =>
      obtain ⟨t,htb,hta,ht,_,_,_,hm2⟩ := hm1.callee hall hg hd hargs
      obtain ⟨k2,w2,x2,hend⟩ := ih htb hta ht hm2
      -- the callee ends before promotion, so it does what it does after it
      obtain ⟨_,_,ι2,_,_,hend',hw2,hc2,hev2,hx⟩ := hall.ends_after hend htb hta ht hm2
      obtain ⟨_,rfl,rfl⟩ := hcallee.unique hend'
      cases hx with
      | ok hv =>
        have hm3 := hm1.advance hs hr1 hk (by simp [hop,Opcode.isTerminator]) hw2 hc2 hend.globals
          hcallee.globals
          hev2 hv
        obtain ⟨_,_,_,h⟩ := ih' rfl rfl hs hm3
        exact ⟨_,_,_,hends (.call hr1 hact' hend h)⟩
  | @callFault w' a' i r w1' c' k w2' e hr hact hcallee ih =>
    subst hb ha
    obtain ⟨n,w1,a1,_,_,_,_,_,hends,hm1,hr1,hk,hact',hst⟩ := hm.step_before hs hall hr hact
    cases hst with
    | call hop hg hd hargs =>
      obtain ⟨t,htb,hta,ht,_,_,_,hm2⟩ := hm1.callee hall hg hd hargs
      obtain ⟨k2,w2,x2,hend⟩ := ih htb hta ht hm2
      obtain ⟨_,_,ι2,_,_,hend',hw2,hc2,hev2,hx⟩ := hall.ends_after hend htb hta ht hm2
      obtain ⟨_,rfl,rfl⟩ := hcallee.unique hend'
      cases hx with
      | error e => exact ⟨_,_,_,hends (.callFault hr1 hact' hend)⟩

end CMinusF
