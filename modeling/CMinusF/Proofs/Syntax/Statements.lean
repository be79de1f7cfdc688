import CMinusF.Proofs.Syntax.Expressions

/-! Statements and declarations are read from exactly the tokens that their trees span. -/
namespace CMinusF.Grammar
open Reader List
variable {k : Token.Kind} {n : Nat} {item : Reader Stmt}

abbrev Condition := Leaf .leftParen × Expression × Leaf .rightParen

def Condition.tokens (c : Condition) : List Token := c.1.1 :: (c.2.1.tokens ++ [c.2.2.1])

theorem parses_condition : Parses (parenthesized Reader.expr) Condition.tokens (·.2.1.meaning)
    (fun _ _ => True) fun _ _ => True := by
  refine .build (.seq (.leaf _) fun _ => .seq parses_expr fun e => .map (.leaf _) fun _ =>
    e.meaning) (fun _ => trivial) ?_ (fun _ => rfl) fun _ => rfl
  intro c us _
  exact ⟨c,rfl,trivial,ends_leaf c.2.2 (by decide) _,trivial⟩

/-! Variables. -/

theorem ScalarType.typeKey?_token (s : ScalarType) :
    typeKey? s.token.kind = some (some s.scalar) := by
  cases s with
  | int t | float t =>
    rw [token,t.2]
    rfl

theorem ResultType.typeKey?_token (s : ResultType) : typeKey? s.token.kind = some s.result := by
  cases s with
  | void t =>
    rw [token,t.2]
    rfl
  | scalar s => exact s.typeKey?_token

theorem ResultType.ext {s s' : ResultType} (h : s.token = s'.token) : s = s' := by
  have hk := congrArg (typeKey? ∘ Token.kind) h
  simp only [Function.comp,typeKey?_token] at hk
  rcases s with t | ⟨⟨t⟩ | ⟨t⟩⟩ <;> rcases s' with t' | ⟨⟨t'⟩ | ⟨t'⟩⟩ <;> cases hk <;>
    rw [show t = t' from Subtype.ext h]

theorem parses_type : Parses Reader.type
    (fun s : ResultType => [s.token]) (fun s => (s.token.position,s.result)) (fun _ _ => True)
    fun _ _ => True where
  reads {s us} _ := by
    show Reader.type (s.token :: us) = _
    simp only [Reader.type,s.typeKey?_token]
  derives {ts a us} h := by
    unfold Reader.type at h
    split at h
    · cases h
    · rename_i t ts
      split at h
      · rename_i s hs
        cases h
        unfold typeKey? at hs
        split at hs <;> cases hs <;> rename_i hk
        · exact ⟨.scalar (.int ⟨t,hk⟩),trivial,rfl,rfl⟩
        · exact ⟨.scalar (.float ⟨t,hk⟩),trivial,rfl,rfl⟩
        · exact ⟨.void ⟨t,hk⟩,trivial,rfl,rfl⟩
      · cases h
  unique h _ _ := ResultType.ext (cons.inj h).1

theorem lengthValue?_eq_some (t : Leaf .integer) (v : Nat) :
    lengthValue? t.1.lexeme = some v ↔ ∃ x :
    Numeral 1 9223372036854775807, x.token = t ∧ x.value = v :=
  Numeral.filter_eq_some (fun v => by simp [Nat.succ_le_iff]) t v

theorem parses_arrayLength : Parses arrayLength
    (fun n : Option Length => n.elim [] Length.tokens) (Option.map (·.number.value))
    (fun _ _ => True) fun _ us => kindOf us ≠ .leftBracket := by
  refine .build (b := Sum.elim (fun p => some ⟨p.1,p.2.1,p.2.2⟩) fun _ => none)
    (.ifNext (by decide) (.valued Numeral.token Numeral.value lengthValue?
      (fun t ts r _ => ?_) lengthValue?_eq_some Numeral.ext
      fun n => .map (.leaf .rightBracket) fun _ => some n) (.nothing none)) (fun _ => trivial) ?_
    (by rintro (_ | _) <;> rfl) (by rintro (_ | _) <;> rfl)
  · cases lengthValue? t.lexeme with
    | none => simp [fail]
    | some v => simp
  · rintro (_ | ⟨l,x,r⟩) us hne
    · exact ⟨.inr (),rfl,hne,trivial⟩
    · exact ⟨.inl (l,x,r),rfl,trivial⟩

theorem parses_variableRest (r : Option Scalar) (pos : Position) (x : String) :
    Parses (variableRest pos r x)
    (fun p : Option Length × Leaf .semicolon => p.1.elim [] Length.tokens ++ [p.2.1])
      (fun p => ⟨pos,x,r.getD .int,p.1.map (·.number.value)⟩)
      (fun _ _ => r.isSome = true) fun _ _ => r.isSome = true := by
  cases r with
  | none => exact .failing (by rintro _ _ ⟨⟩) (by simp)
  | some s =>
    refine .build
      (.seq parses_arrayLength fun n => .map (.leaf .semicolon) fun _ =>
        VariableDecl.mk pos x s (n.map (·.number.value))) (fun _ => rfl) ?_
        (fun _ => rfl) fun _ => rfl
    intro p us _
    exact ⟨p,rfl,by simp [kindOf,p.2.2],trivial⟩

def ResultType.scalar? : ResultType → Option ScalarType
  | .void _ => none
  | .scalar s => some s

theorem parses_variableDecl :
    Parses variableDecl Variable.tokens Variable.meaning (fun _ _ => True) fun _ _ => True := by
  refine .image (.seq parses_type fun s => .seq (.leaf .identifier) fun x =>
    parses_variableRest s.result s.token.position x.1.lexeme)
    (b := fun p => p.1.scalar?.map fun s => ⟨s,p.2.1,p.2.2.1,p.2.2.2⟩) ?_ ?_ ?_
  · rintro ⟨_ | s,x,n,f⟩ _ ⟨⟩
    exact ⟨rfl,rfl⟩
  · rintro ⟨_ | s,x,n,f⟩ us hD
    · cases hD.2.2
    · exact ⟨_,rfl,trivial⟩
  · rintro ⟨s,x,n,f⟩ us -
    exact ⟨(.scalar s,x,n,f),rfl,trivial,trivial,rfl⟩

theorem Variable.starts (v : Variable) : startsDecl v.type.token.kind = true := by
  rw [startsDecl,v.type.typeKey?_token]
  rfl

/-! Parameters. -/

/-- What follows the name of a parameter. -/
def brackets (r : Option Scalar) (pos : Position) (x : String) : Reader Parameter := do
  match r with
  | none => fail (.voidParameter x)
  | some s =>
    if (← peek) = .leftBracket then
      skip
      let _ ← expect .rightBracket
      return ⟨pos,x,s,true⟩
    else return ⟨pos,x,s,false⟩

theorem parses_brackets (r : Option Scalar) (pos : Position) (x : String) :
    Parses (brackets r pos x)
    (fun b : Option (Leaf .leftBracket × Leaf .rightBracket) => b.elim [] fun b => [b.1.1,b.2.1])
      (fun b => ⟨pos,x,r.getD .int,b.isSome⟩) (fun _ _ => r.isSome = true) fun _ us => r.isSome =
        true ∧ kindOf us ≠ .leftBracket := by
  cases r with
  | none => exact .failing (by rintro _ _ ⟨⟩) (by simp)
  | some s =>
    refine .build (b := Sum.elim some fun _ => none)
      (.ifNext (by decide) (.map (.leaf _) fun _ => Parameter.mk pos x s true)
        (.nothing (Parameter.mk pos x s false))) (fun _ => rfl) ?_
      (by rintro (_ | _) <;> rfl) (by rintro (_ | _) <;> rfl)
    rintro (_ | b) us hne
    · exact ⟨.inr (),rfl,hne.2,trivial⟩
    · exact ⟨.inl b,rfl,trivial⟩

theorem parses_parameter : Parses parameter Param.tokens Param.meaning (fun _ _ => True) fun _ us =>
    kindOf us ≠ .leftBracket := by
  refine .image (.seq parses_type fun s => .seq (.leaf .identifier) fun x =>
    parses_brackets s.result s.token.position x.1.lexeme)
    (b := fun p => p.1.scalar?.map fun s => ⟨s,p.2.1,p.2.2⟩) ?_ ?_ ?_
  · rintro ⟨_ | s,x,n,f⟩ _ ⟨⟩ <;> exact ⟨rfl,rfl⟩
  · rintro ⟨_ | s,x,b⟩ us hD
    · cases hD.2.2
    · exact ⟨_,rfl,trivial⟩
  · rintro ⟨s,x,b⟩ us hne
    exact ⟨(.scalar s,x,b),rfl,trivial,trivial,rfl,hne⟩

theorem Param.kind (p : Param) (ts : List Token) :
    kindOf (p.tokens ++ ts) = .intKey ∨ kindOf (p.tokens ++ ts) = .floatKey := by
  obtain ⟨s,x,b⟩ := p
  cases s with
  | int t => exact .inl t.2
  | float t => exact .inr t.2

theorem parses_parameters : Parses parameters Params.tokens Params.meaning (fun _ _ => True)
    fun _ us => kindOf us = .rightParen := by
  refine .ofKind fun k => ?_
  by_cases hv : k = .voidKey
  · subst hv
    let close : Reader (List Parameter) := do
      if (← peek) = .rightParen then return [] else fail .voidParameters
    have hclose : Parses close (fun _ : Unit => []) (fun _ => []) (fun _ _ => True)
        fun _ us => kindOf us = .rightParen := {
      reads := fun {_ us} hR => by
        show (peek >>= _) us = _
        rw [peek_bind,if_pos hR]
        rfl
      derives := fun {ts a us} hx => by
        change (peek >>= _) ts = _ at hx
        rw [peek_bind] at hx
        split at hx <;> cases hx
        exact ⟨(),trivial,rfl,rfl⟩
      unique := fun _ _ _ => rfl }
    refine ⟨expect .voidKey >>= fun _ => close,Parses.agrees_expect (by decide) fun t ts ht r => ?_,
      .build (b := fun p => .void p.1) (.seq (.leaf _) fun _ => hclose)
      (fun _ _ => trivial) ?_ (fun _ => rfl) fun _ => rfl⟩
    · simp only [parameters,peek_bind,kindOf,ht]
      rfl
    · rintro (_ | t | ⟨p,ps⟩) us ⟨hR,hkind⟩
      · cases hkind.symm.trans hR
      · exact ⟨(t,()),rfl,trivial,hR⟩
      · rw [Params.tokens,append_assoc] at hkind
        rcases p.kind _ with h | h <;> cases hkind.symm.trans h
  · by_cases hr : k = .rightParen
    · subst hr
      refine ⟨pure [],fun ts r hts => by rw [parameters,peek_bind,hts],
        .build (b := fun _ => .none) (.nothing []) (fun _ _ => trivial) ?_
        (fun _ => rfl) fun _ => rfl⟩
      rintro (_ | t | ⟨p,ps⟩) us ⟨hR,hkind⟩
      · exact ⟨(),rfl,trivial⟩
      · cases hkind.symm.trans t.2
      · rw [Params.tokens,append_assoc] at hkind
        rcases p.kind _ with h | h <;> cases hkind.symm.trans h
    · refine ⟨Reader.list parameter,?_,.build (b := fun p => .some p.1 p.2)
        (parses_parameter.list (Q := fun _ => True) (fun _ h => h) ?_) (fun _ _ => trivial) ?_
          (fun _ => rfl) fun _ => rfl⟩
      · intro ts r hts
        rw [parameters,peek_bind,hts]
        simp_all
      · intro ts h
        rw [h]
        decide
      · rintro (_ | t | ⟨p,ps⟩) us ⟨hR,hkind⟩
        · exact absurd (hkind.symm.trans hR) hr
        · exact absurd (hkind.symm.trans t.2) hv
        · simp_all

/-! Statements. -/

def Statements.ofList : List Statement → Statements
  | [] => .nil
  | s :: ss => .cons s (ofList ss)

theorem Statements.exists_ofList : (ss : Statements) → ∃ l, ofList l = ss
  | .nil => ⟨[],rfl⟩
  | .cons s ss => by
    obtain ⟨l,rfl⟩ := ss.exists_ofList
    exact ⟨s :: l,rfl⟩

theorem Statements.tokens_ofList (ss : List Statement) :
    (ofList ss).tokens = ss.flatMap Statement.tokens := by
  induction ss with
  | nil => rfl
  | cons s ss ih => rw [ofList,tokens,ih,flatMap_cons]

theorem Statements.meaning_ofList (ss : List Statement) :
    (ofList ss).meaning = ss.map Statement.meaning := by
  induction ss with
  | nil => rfl
  | cons s ss ih => rw [ofList,meaning,ih,map_cons]

theorem Statements.nearest_ofList (ss : List Statement) :
    (ofList ss).Nearest ↔ ∀ s ∈ ss, s.Nearest := by
  induction ss with
  | nil => simp [ofList,Nearest]
  | cons s ss ih => rw [ofList,Nearest,ih,forall_mem_cons]

/-- The kind of token that tells a statement's form; an expression can start with several, of which
this is one. -/
def opening (k : Token.Kind) : Token.Kind := if startsExpr k then .identifier else k

def Statement.opens : Statement → Token.Kind
  | .block _ => .leftBrace
  | .empty _ => .semicolon
  | .expr _ _ => .identifier
  | .ret _ _ | .retValue _ _ _ => .returnKey
  | .ifThen .. | .ifElse .. => .ifKey
  | .loop .. => .whileKey

theorem Statement.opening_tokens (s : Statement) (ts : List Token) :
    opening (kindOf (s.tokens ++ ts)) = s.opens := by
  cases s with
  | block b =>
    obtain ⟨l⟩ := b
    show opening l.1.kind = _
    rw [l.2]
    rfl
  | expr e f =>
    obtain ⟨t,us,h,hk⟩ := Tree.starts e rfl
    rw [tokens,h]
    exact if_pos hk
  | empty k | ret k | retValue k | ifThen k | ifElse k | loop k =>
    show opening k.1.kind = _
    rw [k.2]
    rfl

def startsStmt (k : Token.Kind) : Bool :=
  opening k ∈ [.leftBrace,.semicolon,.identifier,.returnKey,.ifKey,.whileKey]

theorem Statement.starts (s : Statement) (ts : List Token) :
    startsStmt (kindOf (s.tokens ++ ts)) = true := by
  rw [startsStmt,s.opening_tokens]
  cases s <;> rfl

/-- An `else` that follows belongs to another statement. -/
def Statement.Closes (s : Statement) (us : List Token) : Prop :=
  s.isOpen = true → kindOf us ≠ .elseKey

def Block.All (Q : Statement → Prop) (b : Block) : Prop :=
  ∃ l ds ss r, b = .mk l ds (.ofList ss) r ∧ ∀ s ∈ ss, Q s

theorem Block.all_of_nearest {b : Block} (hb : b.Nearest) :
    b.All fun s => s.tokens.length + 2 ≤ b.tokens.length ∧ s.Nearest := by
  obtain ⟨l,ds,ss,r⟩ := b
  obtain ⟨ss,rfl⟩ := ss.exists_ofList
  refine ⟨l,ds,ss,r,rfl,fun s hs => ⟨?_,(Statements.nearest_ofList ss).mp hb s hs⟩⟩
  have := (sublist_flatten_of_mem (mem_map_of_mem (f := Statement.tokens) hs)).length_le
  simp only [Block.tokens,Statements.tokens_ofList,length_append,length_cons,flatMap_def]
  omega

theorem Block.All.imp {Q Q' : Statement → Prop} {b : Block} (h : b.All Q) (hQ : ∀ s, Q s → Q' s) :
    b.All Q' := by
  obtain ⟨l,ds,ss,r,hb,h⟩ := h
  exact ⟨l,ds,ss,r,hb,fun s hs => hQ s (h s hs)⟩

theorem parses_block {D : Statement → List Token → Prop} {Q : Statement → Prop}
    (hD : ∀ {s us}, D s us → s.Nearest)
    (h : Parses item Statement.tokens Statement.meaning D fun s us => Q s ∧ s.Closes us) :
    Parses (Reader.block item) Block.tokens Block.meaning (fun b _ => b.Nearest) fun b _ =>
      b.All Q := by
  have hbody := Parses.many h continuesBlock startsStmt hD (fun hs hF => ⟨hs,fun _ => hF⟩)
    (fun {k} hk => by cases k <;> first | rfl | cases hk) Statement.starts
      (fun {ts} hk he => by rw [he] at hk; cases hk) rfl
  have hdecls := Parses.many parses_variableDecl startsDecl startsDecl (Q := fun _ => True)
    (fun _ => trivial) (fun _ _ => trivial) id (fun v _ => v.starts) (fun _ => trivial) rfl
  refine .build (b := fun p => .mk p.1 p.2.1 (.ofList p.2.2.1) p.2.2.2)
    (.seq (.leaf _) fun _ => .seq hdecls fun ds => .seq hbody fun ss =>
      .map (.leaf .rightBrace) fun _ => (ds.map Variable.meaning,ss.map Statement.meaning)) ?_ ?_
    (fun p => by simp [Block.tokens,Statements.tokens_ofList]) fun p => by
      rw [Block.meaning,Statements.meaning_ofList]
  · exact fun hD => (Statements.nearest_ofList _).mpr hD.2.2.1.1
  · rintro _ us ⟨l,ds,ss,r,rfl,hss⟩
    have hr : kindOf ([r.1] ++ us) = .rightBrace := r.2
    refine ⟨(l,ds,ss,r),rfl,trivial,⟨fun _ _ => trivial,?_,trivial⟩,
      ⟨hss,by rw [hr]; rfl,by rw [hr]; decide⟩,trivial⟩
    -- a statement does not start like a declaration
    dsimp only
    cases ss with
    | nil => rw [flatMap_nil,nil_append,hr]; rfl
    | cons s ss =>
      have := s.starts (ss.flatMap Statement.tokens ++ [r.1] ++ us)
      simp only [flatMap_cons,append_assoc] at this ⊢
      revert this
      cases kindOf _ <;> decide

/-- The forms of a statement that starts with a token of a kind. -/
def ParsesForm (n : Nat) (k : Token.Kind) (y : Reader Stmt) : Prop :=
  Parses y Statement.tokens Statement.meaning (fun s us => kindOf (s.tokens ++ us) = k → s.Nearest ∧
    s.Closes us)
    fun s us => ((s.tokens.length ≤ n ∧ s.Nearest) ∧ s.Closes us) ∧ kindOf (s.tokens ++ us) = k

theorem Statement.opens_eq {s : Statement} {us : List Token} (h : kindOf (s.tokens ++ us) = k) :
    opening k = s.opens := h ▸ s.opening_tokens us

theorem parses_return :
    ParsesForm n .returnKey (expect .returnKey >>= fun k => returnRest k.position) := by
  refine .build (b := fun p => p.2.elim (fun q => .ret p.1 q.1) fun q => .retValue p.1 q.1 q.2)
    (.seq (.leaf _) fun k => .ifNext (by decide) (.nothing (Stmt.ret k.1.position none))
      (.seq parses_expr fun e => .map (.leaf .semicolon) fun _ =>
        Stmt.ret k.1.position (some e.meaning))) ?_ ?_
    (by rintro ⟨k,p | p⟩ <;> rfl) (by rintro ⟨k,p | p⟩ <;> rfl)
  · rintro ⟨k,p | p⟩ us - - <;> exact ⟨trivial,fun h => by cases h⟩
  · rintro s us ⟨-,hkind⟩
    cases s with
    | ret k f => exact ⟨(k,.inl (f,())),rfl,trivial,trivial⟩
    | retValue k e f =>
      refine ⟨(k,.inr (e,f)),rfl,trivial,?_,ends_leaf f (by decide) _,trivial⟩
      rw [append_assoc]
      exact kindOf_ne_of_starts e rfl rfl _
    | _ => cases Statement.opens_eq hkind

theorem parses_exprStmt (hk : opening k ∉ [.leftBrace,.semicolon,.returnKey,.ifKey,.whileKey]) :
    ParsesForm n k expressionStmt := by
  refine .build (b := fun p => .expr p.1 p.2)
    (.seq parses_expr fun e => .map (.leaf .semicolon) fun _ => Stmt.expr e.meaning)
    ?_ ?_ (fun _ => rfl) fun _ => rfl
  · exact fun _ _ => ⟨trivial,fun h => by cases h⟩
  · rintro s us ⟨-,hkind⟩
    rw [Statement.opens_eq hkind] at hk
    cases s with
    | expr e f => exact ⟨(e,f),rfl,ends_leaf f (by decide) _,trivial⟩
    | _ => simp [Statement.opens] at hk

section
variable (h : Parses item Statement.tokens Statement.meaning (fun s us => s.Nearest ∧ s.Closes us)
  fun s us => (s.tokens.length ≤ n ∧ s.Nearest) ∧ s.Closes us)
include h

theorem parses_blockStmt :
    ParsesForm (n + 1) .leftBrace (Reader.block item >>= fun p => pure (.block p.1 p.2)) := by
  refine .build (b := .block) (.map (parses_block And.left h) fun p => Stmt.block p.1 p.2) ?_ ?_
    (fun _ => rfl) fun _ => rfl
  · exact fun hb _ => ⟨hb,fun h => by cases h⟩
  · rintro s us ⟨⟨⟨hlen,hs⟩,-⟩,hkind⟩
    cases s with
    | block b =>
      refine ⟨b,rfl,(Block.all_of_nearest hs).imp fun s hs => ⟨?_,hs.2⟩⟩
      have : b.tokens.length ≤ n + 1 := hlen
      omega
    | _ => cases Statement.opens_eq hkind

theorem parses_while : ParsesForm (n + 1) .whileKey
    (expect .whileKey >>= fun _ => whileRest item) := by
  refine .build (b := fun p => .loop p.1 p.2.1.1 p.2.1.2.1 p.2.1.2.2 p.2.2)
    (.seq (.leaf _) fun _ => .seq parses_condition fun c => .map h fun b =>
      Stmt.loop c.2.1.meaning b) (fun hD _ => hD.2.2) ?_
    (fun p => by simp [Statement.tokens,Condition.tokens]) fun _ => rfl
  rintro s us ⟨⟨⟨hlen,hs⟩,ho⟩,hkind⟩
  cases s with
  | loop k l c r body =>
    simp only [Statement.tokens,length_cons,length_append] at hlen
    have hbody : body.tokens.length ≤ n := by omega
    exact ⟨(k,(l,c,r),body),rfl,trivial,trivial,⟨hbody,hs⟩,ho⟩
  | _ => cases Statement.opens_eq hkind

theorem parses_if : ParsesForm (n + 1) .ifKey (expect .ifKey >>= fun _ => ifRest item) := by
  refine .build (b := fun p => p.2.2.2.elim
    (fun q => .ifElse p.1 p.2.1.1 p.2.1.2.1 p.2.1.2.2 p.2.2.1 q.1 q.2)
      fun _ => .ifThen p.1 p.2.1.1 p.2.1.2.1 p.2.1.2.2 p.2.2.1)
    (.seq (.leaf _) fun _ => .seq parses_condition fun c => .seq h fun yes => .ifNext (by decide)
      (.map h fun no => Stmt.ifElse c.2.1.meaning yes.meaning no)
        (.nothing (Stmt.ifThen c.2.1.meaning yes.meaning))) ?_ ?_
    (by rintro ⟨k,c,yes,p | _⟩ <;> simp [Statement.tokens,Condition.tokens])
      (by rintro ⟨k,c,yes,p | _⟩ <;> rfl)
  · rintro ⟨k,c,yes,⟨e,no⟩ | _⟩ us ⟨-,-,⟨hyes,ho⟩,hrest⟩ -
    · exact ⟨⟨eq_false_of_ne_true fun h => ho h e.2,hyes,hrest.1⟩,hrest.2⟩
    · exact ⟨hyes,fun _ => hrest.1⟩
  · rintro s us ⟨⟨⟨hlen,hs⟩,ho⟩,hkind⟩
    cases s with
    | ifThen k l c r yes =>
      simp only [Statement.tokens,length_cons,length_append] at hlen
      have hyes : yes.tokens.length ≤ n := by omega
      exact ⟨(k,(l,c,r),yes,.inr ()),rfl,trivial,trivial,⟨⟨hyes,hs⟩,fun _ => ho rfl⟩,ho rfl,trivial⟩
    | ifElse k l c r yes e no =>
      simp only [Statement.tokens,length_cons,length_append] at hlen
      have hyes : yes.tokens.length ≤ n := by omega
      have hno : no.tokens.length ≤ n := by omega
      refine ⟨(k,(l,c,r),yes,.inl (e,no)),rfl,trivial,trivial,⟨⟨hyes,hs.2.1⟩,fun h => ?_⟩,
        ⟨hno,hs.2.2⟩,ho⟩
      rw [hs.1] at h
      cases h
    | _ => cases Statement.opens_eq hkind

end

theorem parses_statement (n : Nat) :
    Parses (statement n) Statement.tokens Statement.meaning (fun s us => s.Nearest ∧ s.Closes us)
    fun s us => (s.tokens.length ≤ n ∧ s.Nearest) ∧ s.Closes us := by
  induction n with
  | zero =>
    refine .failing (by rintro _ _ ⟨⟩) fun s us hR => ?_
    have := s.starts []
    rw [length_eq_zero_iff.mp (Nat.le_zero.mp hR.1.1)] at this
    cases this
  | succ n ih =>
    refine .ofKind fun k => ?_
    cases k with
    | leftBrace =>
      exact ⟨_,fun ts r hts => by cases ts <;> simp_all [kindOf,statement],parses_blockStmt ih⟩
    | semicolon =>
      refine ⟨expect .semicolon >>= fun _ => pure .empty,
        Parses.agrees_expect (by decide) fun t ts ht r => ?_,
        .build (b := .empty) (.map (.leaf _) fun _ => Stmt.empty) ?_ ?_ (fun _ => rfl) fun _ => rfl⟩
      · simp only [statement,ht]
        rfl
      · exact fun _ _ => ⟨trivial,fun h => by cases h⟩
      · rintro s us ⟨-,hkind⟩
        cases s with
        | empty f => exact ⟨f,rfl,trivial⟩
        | _ => cases Statement.opens_eq hkind
    | returnKey =>
      exact ⟨_,Parses.agrees_expect (by decide) fun t ts ht r => by simp only [statement,ht],
        parses_return⟩
    | ifKey =>
      exact ⟨_,Parses.agrees_expect (by decide) fun t ts ht r => by simp only [statement,ht],
        parses_if ih⟩
    | whileKey =>
      exact ⟨_,Parses.agrees_expect (by decide) fun t ts ht r => by simp only [statement,ht],
        parses_while ih⟩
    | _ =>
      refine ⟨expressionStmt,fun ts r hts => ?_,parses_exprStmt (by decide)⟩
      cases ts with
      | nil => exact ⟨by rintro ⟨⟩,by rintro ⟨⟩⟩
      | cons t ts => simp only [statement,show t.kind = _ from hts]

theorem parses_stmt : Parses Reader.stmt Statement.tokens Statement.meaning (fun s us => s.Nearest ∧
    s.Closes us)
    fun s us => s.Nearest ∧ s.Closes us :=
  .fuel (fun n => (parses_statement n).mono id fun h => ⟨⟨h.1,h.2.1⟩,h.2.2⟩) id

/-! Declarations. -/

theorem parses_functionRest (s : ResultType) (x : Leaf .identifier) :
    Parses (functionRest s.token.position s.result x.1.lexeme)
    (fun p : Params × Leaf .rightParen × Block => p.1.tokens ++ p.2.1.1 :: p.2.2.tokens)
    (fun p => ⟨s.token.position,x.1.lexeme,s.result,p.1.meaning,p.2.2.meaning.1,p.2.2.meaning.2⟩)
    (fun p _ => p.2.2.Nearest)
    fun p _ => p.2.2.Nearest := by
  refine .build (.seq parses_parameters fun ps => .seq (.leaf _) fun _ =>
    .map (parses_block And.left parses_stmt)
    fun b => FunctionDecl.mk s.token.position x.1.lexeme s.result ps.meaning b.1 b.2)
      (fun hD => hD.2.2) ?_ (fun _ => rfl) fun _ => rfl
  intro p us hb
  exact ⟨p,rfl,p.2.1.2,trivial,(Block.all_of_nearest hb).imp fun _ hs => hs.2⟩

theorem parses_decl : Parses Reader.decl Declaration.tokens Declaration.meaning
    (fun d _ => d.Nearest) fun d _ => d.Nearest := by
  refine .image (b := fun p => p.2.2.elim
    (fun q => some (.function p.1 p.2.1 q.1 q.2.1 q.2.2.1 q.2.2.2))
      fun q => p.1.scalar?.map fun s => .variable ⟨s,p.2.1,q.1,q.2⟩)
    (.seq parses_type fun s => .seq (.leaf .identifier) fun x =>
      .ifNext (by decide) (.map (parses_functionRest s x) Decl.function)
      (.map (parses_variableRest s.result s.token.position x.1.lexeme) Decl.variable)) ?_ ?_ ?_
  · rintro ⟨s,x,q | q⟩ _ h
    · cases h
      exact ⟨rfl,rfl⟩
    · cases s with
      | void => cases h
      | scalar s =>
        cases h
        exact ⟨rfl,rfl⟩
  · rintro ⟨s,x,q | q⟩ us ⟨-,-,hD⟩
    · exact ⟨_,rfl,hD⟩
    · cases s with
      | void => cases hD.2
      | scalar s => exact ⟨_,rfl,trivial⟩
  · rintro (⟨s,x,n,f⟩ | ⟨s,x,l,ps,r,b⟩) us hd
    · refine ⟨(.scalar s,x,.inr (n,f)),rfl,trivial,trivial,?_,rfl⟩
      cases n with
      | none => simp [kindOf,f.2]
      | some n => simp [kindOf,Length.tokens,n.left.2]
    · exact ⟨(s,x,.inl (l,ps,r,b)),rfl,trivial,trivial,hd⟩

theorem Declaration.starts (d : Declaration) (ts : List Token) :
    startsDecl (kindOf (d.tokens ++ ts)) = true := by
  cases d with
  | «variable» v => exact v.starts
  | function s =>
    show startsDecl s.token.kind = true
    rw [startsDecl,s.typeKey?_token]
    rfl

theorem parses_decls : Parses (Reader.many (· ≠ .eof) Reader.decl) (flatMap Declaration.tokens)
    (List.map Declaration.meaning) (fun ds us => (∀ d ∈ ds, d.Nearest) ∧
      decide (kindOf us ≠ .eof) = false)
    fun ds us => (∀ d ∈ ds, d.Nearest) ∧ decide (kindOf us ≠ .eof) = false ∧ True :=
  parses_decl.many (· ≠ .eof) startsDecl id (fun hd _ => hd)
    (fun {k} hk => by cases k <;> first | rfl | cases hk) Declaration.starts
    (fun _ => trivial) rfl

theorem program_tokens (d : Derivation) (hd : d.Nearest) :
    Reader.program d.tokens = .ok (d.meaning,[]) := by
  have hend : decide (kindOf [] ≠ .eof) = false := rfl
  have h := parses_decls.reads ⟨hd,hend,trivial⟩
  rw [append_nil] at h
  exact (bind_of_ok h).trans rfl

/-- A program that is read is spanned by a derivation; if there is no `eof`, by one of all the
tokens. -/
theorem derives_program {ts us : List Token} (hts : ∀ t ∈ ts, t.kind ≠ .eof) {p : Program}
    (h : Reader.program ts = .ok (p,us)) :
    ∃ d : Derivation, d.Nearest ∧ d.tokens = ts ∧ d.meaning = p := by
  obtain ⟨as,vs,has,hend⟩ := bind_eq_ok.mp h
  cases hend
  obtain ⟨ds,⟨hnear,hstop⟩,rfl,rfl⟩ := parses_decls.derives has
  refine ⟨⟨ds⟩,hnear,?_,rfl⟩
  cases us with
  | nil => rw [append_nil,Derivation.tokens]
  | cons t us => exact absurd (Decidable.not_not.mp (of_decide_eq_false hstop)) (hts t (by simp))

/-- Tokens have at most one derivation in which each `else` is bound to the nearest `if`. -/
theorem Derivation.unique {d d' : Derivation} (h : d.tokens = d'.tokens) (hd : d.Nearest)
    (hd' : d'.Nearest) : d = d' := by
  have : d.decls = d'.decls :=
    parses_decls.unique (congrArg (· ++ []) h) ⟨hd,rfl,trivial⟩ ⟨hd',rfl,trivial⟩
  rw [Derivation.mk.injEq,this]

end CMinusF.Grammar
