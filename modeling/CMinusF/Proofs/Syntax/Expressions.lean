import CMinusF.Proofs.Syntax.Combinators

/-! Expressions are read from exactly the tokens that their trees span. -/
namespace CMinusF
open List

namespace Grammar
open Reader

/-! Which tokens end a part of an expression. -/

/-- How far up a token reaches: the parts of a lower rank end before it. -/
def reach : Token.Kind → Nat
  | .leftParen | .leftBracket => 0
  | .star | .slash => 1
  | .plus | .minus => 2
  | .equal | .notEqual | .less | .lessEqual | .greater | .greaterEqual => 3
  | .assign => 4
  | .comma => 5
  | .rightParen => 7
  | _ => 6

def Level.rank : Level → Nat
  | .product => 1
  | .sum => 2

def Part.rank : Part → Nat
  | .factor | .target | .var => 0
  | .level g | .more g => g.rank
  | .simple => 3
  | .expression => 4
  | .moreArguments => 5
  | .arguments => 6

/-- A part does not go on with the tokens. -/
def Ends (p : Part) (ts : List Token) : Prop := p.rank < reach (kindOf ts)

theorem Ends.mono {p q : Part} {ts : List Token} (h : Ends p ts) (hq : q.rank ≤ p.rank) :
    Ends q ts := Nat.lt_of_le_of_lt hq h

theorem ends_leaf {p : Part} {k : Token.Kind} (t : Leaf k) (h : p.rank < reach k)
    (ts : List Token) : Ends p (t.1 :: ts) := by
  rw [Ends,kindOf,t.2]
  exact h

def Level.op? : Level → Token.Kind → Option BinaryOp
  | .product => multiplicative?
  | .sum => additive?

theorem Level.op?_symbolOf {g : Level} {op : BinaryOp} (h : g.has op = true) :
    g.op? (symbolOf op) = some op := by
  cases g <;> cases op <;> first | rfl | cases h

theorem relation?_symbolOf {op : BinaryOp} (h : op.isComparison = true) :
    relation? (symbolOf op) = some op := by
  cases op <;> first | rfl | cases h

theorem Level.op?_eq_some {g : Level} {k : Token.Kind} {op : BinaryOp} (h : g.op? k = some op) :
    g.has op = true ∧ k = symbolOf op := by
  cases g <;> cases k <;> cases h <;> exact ⟨rfl,rfl⟩

theorem relation?_eq_some {k : Token.Kind} {op : BinaryOp} (h : relation? k = some op) :
    op.isComparison = true ∧ k = symbolOf op := by
  cases k <;> cases h <;> exact ⟨rfl,rfl⟩

theorem Level.reach_symbolOf {g : Level} {op : BinaryOp} (h : g.has op = true) :
    reach (symbolOf op) = g.rank := by
  cases g <;> cases op <;> first | rfl | cases h

theorem reach_relation {op : BinaryOp} (h : op.isComparison = true) : reach (symbolOf op) = 3 := by
  cases op <;> first | rfl | cases h

theorem Level.op?_of_ends {g : Level} {ts : List Token} (h : Ends (.level g) ts) :
    g.op? (kindOf ts) = none := by
  unfold Ends at h
  generalize kindOf ts = k at h
  cases g <;> cases k <;> first | rfl | exact absurd h (by decide)

theorem relation?_of_ends {ts : List Token} (h : Ends .simple ts) :
    relation? (kindOf ts) = none := by
  unfold Ends at h
  generalize kindOf ts = k at h
  cases k <;> first | rfl | exact absurd h (by decide)

theorem Level.rank_operand (g : Level) : g.operand.rank < g.rank := by cases g <;> decide

theorem ends_operator {p : BinaryOp → Bool} (o : Operator p) {q : Part}
    (h : q.rank < reach (symbolOf o.op)) (ts : List Token) :
    Ends q (o.token.1 :: ts) := ends_leaf o.token h ts

theorem ends_more {g : Level} (ds : Tree (.more g)) {ts : List Token} (h : Ends (.level g) ts) :
    Ends g.operand (ds.tokens ++ ts) := by
  cases ds with
  | stop => exact h.mono (Nat.le_of_lt g.rank_operand)
  | more o d ds => exact ends_operator o (by rw [g.reach_symbolOf o.is]; exact g.rank_operand) _

/-! The first token of an expression. -/

def startsExpr : Token.Kind → Bool
  | .identifier | .integer | .decimal | .leftParen => true
  | _ => false

/-- The part spans at least one token. -/
def Part.isSolid : Part → Bool
  | .more _ | .arguments | .moreArguments => false
  | _ => true

theorem Tree.starts {p : Part} (d : Tree p) (hp : p.isSolid = true) :
    ∃ t ts, d.tokens = t :: ts ∧ startsExpr t.kind = true := by
  induction d with
  | assign t q e ih _ =>
    obtain ⟨u,us,hu,hk⟩ := ih rfl
    simp_all
  | relation s o s' ih _ =>
    obtain ⟨u,us,hu,hk⟩ := ih rfl
    simp_all
  | @chain g d ds ih _ =>
    obtain ⟨u,us,hu,hk⟩ := ih (by cases g <;> rfl)
    exact ⟨u,us ++ ds.tokens,by rw [tokens,hu,cons_append],hk⟩
  | plain s ih | single s ih | targetVar s ih | factorVar s ih => exact ih rfl
  | name x | element x | call x | targetParen x | paren x => exact ⟨_,_,rfl,by rw [x.2]; rfl⟩
  | integer n | fraction n => exact ⟨_,_,rfl,by rw [n.token.2]; rfl⟩
  | stop | more | noArguments | firstArgument | lastArgument | nextArgument => cases hp

theorem kindOf_ne_of_starts {p : Part} (d : Tree p) (hp : p.isSolid = true) {k : Token.Kind}
    (hk : startsExpr k = false) (ts : List Token) :
    kindOf (d.tokens ++ ts) ≠ k := by
  obtain ⟨t,us,h,ht⟩ := d.starts hp
  rw [h]
  rintro rfl
  rw [show startsExpr t.kind = false from hk] at ht
  cases ht

theorem Tree.length_pos {p : Part} (d : Tree p) (hp : p.isSolid = true) : 0 < d.tokens.length := by
  obtain ⟨t,ts,h,-⟩ := d.starts hp
  simp [h]

theorem Ends.kindOf_ne {p : Part} {k : Token.Kind} {ts : List Token} (h : Ends p ts)
    (hk : reach k ≤ p.rank) : kindOf ts ≠ k := by
  rintro rfl
  exact absurd h (Nat.not_lt.mpr hk)

/-! Reading. -/

theorem symbolOf_injective {a b : BinaryOp} (h : symbolOf a = symbolOf b) : a = b := by
  cases a <;> cases b <;> first | rfl | cases h

theorem Operator.ext {p : BinaryOp → Bool} {x y : Operator p}
    (h : x.token.1 = y.token.1) : x = y := by
  obtain ⟨a,ha,l⟩ := x
  obtain ⟨b,hb,l'⟩ := y
  obtain rfl : a = b := symbolOf_injective (l.2.symm.trans ((congrArg Token.kind h).trans l'.2))
  rw [show l = l' from Subtype.ext h]

/-- An operator that may follow, and what comes after it. -/
def ifOperator {α : Type} (op? : Token.Kind → Option BinaryOp) (a : α) (f : BinaryOp → Reader α) :
    Reader α := do
  match op? (← peek) with
  | none => return a
  | some op =>
    skip
    f op

theorem parses_operator {α δ : Type} {op? : Token.Kind → Option BinaryOp} {p : BinaryOp → Bool}
    {f : BinaryOp → Reader α} {tokens : δ → List Token} {meaning : BinaryOp → δ → α}
    {D R : δ → List Token → Prop} (hop : ∀ {k op}, op? k = some op ↔ p op = true ∧ k = symbolOf op)
    (h : ∀ op, Parses (f op) tokens (meaning op) D R) (a : α) :
    Parses (ifOperator op? a f)
      (Sum.elim (fun q : Operator p × δ => q.1.token.1 :: tokens q.2) fun _ : Unit => [])
      (Sum.elim (fun q => meaning q.1.op q.2) fun _ => a)
      (fun _ _ => True) (Sum.elim (fun q => R q.2) fun _ us => op? (kindOf us) = none) where
  reads {s us} hr := by
    rw [ifOperator,peek_bind]
    cases s with
    | inl q =>
      simp only [Sum.elim_inl,cons_append,kindOf,q.1.token.2,hop.mpr ⟨q.1.is,rfl⟩]
      exact (h _).reads hr
    | inr _ =>
      simp only [Sum.elim_inr,nil_append,show op? (kindOf us) = none from hr]
      rfl
  derives {ts a us} hx := by
    rw [ifOperator,peek_bind] at hx
    cases ho : op? (kindOf ts) with
    | none =>
      simp only [ho] at hx
      cases hx
      exact ⟨.inr (),trivial,rfl,rfl⟩
    | some op =>
      simp only [ho] at hx
      obtain ⟨hp,hk⟩ := hop.mp ho
      cases ts with
      | nil => cases op <;> cases hk
      | cons t ts =>
        obtain ⟨d,-,rfl,rfl⟩ := (h op).derives hx
        exact ⟨.inl (⟨op,hp,⟨t,hk⟩⟩,d),trivial,rfl,rfl⟩
  unique {s s' ts us} heq hs hs' := by
    have hend : ∀ {q : Operator p × δ} {ts us : List Token}, q.1.token.1 :: tokens q.2 ++ ts = us →
        op? (kindOf us) ≠ none := by
      rintro q ts _ rfl
      simp only [cons_append,kindOf,q.1.token.2,hop.mpr ⟨q.1.is,rfl⟩]
      exact Option.some_ne_none _
    rcases s with q | _ <;> rcases s' with q' | _
    · obtain ⟨ho,heq⟩ := cons.inj heq
      rw [Sum.inl.injEq,Prod.ext_iff]
      exact ⟨Operator.ext ho,(h q.1.op).unique heq hs hs'⟩
    · exact absurd hs' (hend heq)
    · exact absurd hs (hend heq.symm)
    · rfl

/-- A part of at most so many tokens, with nothing after it that goes on with it. -/
def EndsWithin {p : Part} (n : Nat) (d : Tree p) (us : List Token) : Prop :=
  d.tokens.length ≤ n ∧ Ends p us

namespace Tree

def ofList : List (Leaf .comma × Expression) → Tree .moreArguments
  | [] => .lastArgument
  | p :: ps => .nextArgument p.1 p.2 (ofList ps)

theorem exists_ofList : (d : Tree .moreArguments) → ∃ ps, ofList ps = d
  | .lastArgument => ⟨[],rfl⟩
  | .nextArgument c e es => by
    obtain ⟨ps,rfl⟩ := es.exists_ofList
    exact ⟨(c,e) :: ps,rfl⟩

theorem tokens_ofList (ps : List (Leaf .comma × Expression)) :
    (ofList ps).tokens = ps.flatMap fun p => p.1.1 :: p.2.tokens := by
  induction ps with
  | nil => rfl
  | cons p ps ih => rw [ofList,tokens,ih,flatMap_cons,cons_append]

theorem meaning_ofList (ps : List (Leaf .comma × Expression)) :
    (ofList ps).meaning = ps.map fun p => p.2.meaning := by
  induction ps with
  | nil => rfl
  | cons p ps ih => rw [ofList,meaning,ih,map_cons]

end Tree

theorem Numeral.ext {a b : Nat} {x y : Numeral a b} (h : x.token = y.token) : x = y := by
  obtain ⟨l,v,hv,_,_⟩ := x
  obtain ⟨l',v',hv',_,_⟩ := y
  grind

theorem Fraction.ext {x y : Fraction} (h : x.token = y.token) : x = y := by
  obtain ⟨l,v,hv⟩ := x
  obtain ⟨l',v',hv'⟩ := y
  grind

theorem Numeral.filter_eq_some {a b : Nat} {p : Nat → Bool} (hp : ∀ v, p v = true ↔ a ≤ v ∧ v ≤ b)
    (t : Leaf .integer) (v : Nat) :
    (decimalValue? t.1.lexeme.toList).filter p = some v ↔ ∃ x :
    Numeral a b, x.token = t ∧ x.value = v := by
  rw [Option.filter_eq_some_iff,hp]
  constructor
  · rintro ⟨hw,h⟩
    exact ⟨⟨t,v,hw,h.1,h.2⟩,rfl,rfl⟩
  · rintro ⟨x,rfl,rfl⟩
    exact ⟨x.written,x.least_le,x.le_most⟩

theorem integerValue?_eq_some (t : Leaf .integer) (v : Nat) :
    integerValue? t.1.lexeme = some v ↔ ∃ x : Numeral 0 2147483647, x.token = t ∧ x.value = v :=
  Numeral.filter_eq_some (fun v => by simp) t v

section
variable {e item : Reader Expr} {n : Nat} {g : Level}

theorem parses_chain
    (h : Parses item (Tree.tokens (p := g.operand)) (fun d => Level.expr d.meaning)
      (fun _ _ => True) (EndsWithin n)) (k : Nat)
    (left : Expr) : Parses (Reader.chain g.op? item k left) (Tree.tokens (p := .more g))
    (·.meaning left) (fun _ _ => True)
      fun ds us => ds.tokens.length ≤ k ∧ EndsWithin n ds us := by
  induction k generalizing left with
  | zero =>
    refine .build (b := fun _ => .stop) (.nothing left) (fun _ => trivial) ?_
      (fun _ => rfl) fun _ => rfl
    rintro ds us ⟨hk,-⟩
    cases ds with
    | stop => exact ⟨(),rfl,trivial⟩
    | more => simp at hk
  | succ k ih =>
    refine .build (b := Sum.elim (fun p => .more p.1 p.2.1 p.2.2) fun _ => .stop)
      (parses_operator ⟨Level.op?_eq_some,fun h => h.2 ▸ Level.op?_symbolOf h.1⟩
        (fun op => .seq h fun d => ih (.binary op left (Level.expr d.meaning))) left)
      (fun _ => trivial) ?_ (by rintro (_ | _) <;> rfl) (by rintro (_ | _) <;> rfl)
    rintro ds us ⟨hk,hn,he⟩
    cases ds with
    | stop => exact ⟨.inr (),rfl,Level.op?_of_ends he⟩
    | more o d ds =>
      simp only [Tree.tokens,length_append,length_cons] at hk hn
      exact ⟨.inl (o,d,ds),rfl,⟨by show d.tokens.length ≤ n; omega,ends_more ds he⟩,
        by show ds.tokens.length ≤ k; omega,by show ds.tokens.length ≤ n; omega,he⟩

theorem parses_leftGrouped
    (h : Parses item (Tree.tokens (p := g.operand)) (fun d => Level.expr d.meaning)
      (fun _ _ => True) (EndsWithin n)) :
    Parses (leftGrouped g.op? item) (Tree.tokens (p := .level g)) Tree.meaning (fun _ _ => True)
    (EndsWithin n) := by
  refine .fuel (y := fun k => item >>= Reader.chain g.op? item k) (D := fun _ _ _ => True)
    (fun k => ?_) fun _ => trivial
  refine .build (b := fun p => .chain p.1 p.2)
    (.seq h fun d => parses_chain h k (Level.expr d.meaning)) (fun _ => trivial) ?_
    (fun _ => rfl) fun _ => rfl
  rintro d us ⟨hk,hn,he⟩
  cases d with | chain d ds =>
  simp only [Tree.tokens,length_append] at hk hn
  exact ⟨(d,ds),rfl,⟨Nat.le_trans (Nat.le_add_right ..) hn,ends_more ds he⟩,
    Nat.le_trans (Nat.le_add_left ..) hk,Nat.le_trans (Nat.le_add_left ..) hn,he⟩

section
variable (h : Parses e (Tree.tokens (p := .expression)) Tree.meaning (fun _ _ => True)
  (EndsWithin n))
include h

/-! Factors. -/

theorem parses_arguments : Parses (Reader.arguments e)
    (fun p : Tree .arguments × Leaf .rightParen => p.1.tokens ++ [p.2.1]) (·.1.meaning)
    (fun _ _ => True) fun p _ => p.1.tokens.length ≤ n := by
  have hlist := h.list (fun hd hF => ⟨hd,hF⟩) fun hk => by
    rw [Ends,hk]
    decide
  refine .build (b := Sum.elim (fun p => (.noArguments,p.1)) fun p =>
    (.firstArgument p.1.1 (Tree.ofList p.1.2),p.2))
    (.ifNext (by decide) (.nothing []) (.seq hlist fun p => .map (.leaf .rightParen) fun _ =>
      p.1.meaning :: p.2.map fun q => q.2.meaning))
    (fun _ => trivial) ?_ ?_ ?_
  · rintro ⟨d,r⟩ us hn
    cases d with
    | noArguments => exact ⟨.inl (r,()),rfl,trivial⟩
    | firstArgument d ds =>
      obtain ⟨ds,rfl⟩ := ds.exists_ofList
      simp only [Tree.tokens,Tree.tokens_ofList,length_append] at hn
      have hitems : ∀ q ∈ ds, q.2.tokens.length ≤ n := fun q hq => by
        have := (sublist_flatten_of_mem
          (mem_map_of_mem (f := fun q => q.1.1 :: q.2.tokens) hq)).length_le
        rw [← flatMap_def,length_cons] at this
        omega
      have hr : kindOf ([r.1] ++ us) = .rightParen := r.2
      refine ⟨.inr ((d,ds),r),rfl,?_,
        ⟨⟨Nat.le_trans (Nat.le_add_right ..) hn,hitems⟩,by rw [Ends,hr]; decide,
        by rw [hr]; decide⟩,trivial⟩
      simp only [append_assoc]
      exact kindOf_ne_of_starts d rfl (by decide) _
  · rintro (_ | ⟨⟨d,ds⟩,r⟩)
    · rfl
    · simp [Tree.tokens_ofList]
  · rintro (_ | ⟨⟨d,ds⟩,r⟩)
    · rfl
    · simp [Tree.meaning_ofList]

theorem parses_named (x : Leaf .identifier) : Parses (named e x.1.position x.1.lexeme)
    (Sum.elim (fun q : Leaf .leftParen × Tree .arguments × Leaf .rightParen =>
      q.1.1 :: (q.2.1.tokens ++ [q.2.2.1]))
      (Sum.elim (fun q : Leaf .leftBracket × Expression × Leaf .rightBracket =>
        q.1.1 :: (q.2.1.tokens ++ [q.2.2.1])) fun _ : Unit => []))
    (Sum.elim (fun q => .call x.1.position x.1.lexeme q.2.1.meaning)
      (Sum.elim (fun q => .element x.1.position x.1.lexeme q.2.1.meaning) fun _ =>
        .variable x.1.position x.1.lexeme))
    (fun _ _ => True)
    (Sum.elim (fun q _ => q.2.1.tokens.length ≤ n)
      (Sum.elim (fun q _ => q.2.1.tokens.length ≤ n) fun _ us => Ends .factor us)) := by
  have hnamed : named e x.1.position x.1.lexeme = (do
      if (← peek) = .leftParen then
        skip
        Reader.arguments e >>= fun as => pure (.call x.1.position x.1.lexeme as)
      else if (← peek) = .leftBracket then
        skip
        e >>= fun i => expect .rightBracket >>= fun _ =>
          pure (.element x.1.position x.1.lexeme i)
      else pure (.variable x.1.position x.1.lexeme)) := by
    funext ts
    rw [named]
    generalize hk : kindOf ts = k
    cases k <;> simp only [reduceCtorEq,if_false,if_true,peek_bind,hk]
  rw [hnamed]
  refine .build (b := id)
    (.ifNext (by decide) (.map (parses_arguments h) fun as => Expr.call x.1.position x.1.lexeme as)
    (.ifNext (by decide) (.seq h fun i => .map (.leaf .rightBracket) fun _ =>
      Expr.element x.1.position x.1.lexeme i.meaning)
      (.nothing (Expr.variable x.1.position x.1.lexeme)))) (fun _ => trivial) ?_ ?_ ?_
  · rintro (q | q | _) us hr
    · exact ⟨.inl q,rfl,hr⟩
    · exact ⟨.inr (.inl q),rfl,by simp [kindOf,q.1.2],⟨hr,ends_leaf q.2.2 (by decide) _⟩,trivial⟩
    · exact ⟨.inr (.inr ()),rfl,hr.kindOf_ne (by decide),hr.kindOf_ne (by decide),trivial⟩
  · rintro (q | q | _) <;> rfl
  · rintro (q | q | _) <;> rfl

theorem parses_factor : Parses (factor e) (Tree.tokens (p := .factor)) Tree.meaning
    (fun _ _ => True) (EndsWithin (n + 1)) := by
  refine .ofKind fun k => ?_
  cases k with
  | identifier =>
    have hname := (Parses.leaf .identifier).seq (f := fun t => named e t.position t.lexeme)
      (parses_named h)
    refine ⟨_,Parses.agrees_expect (by decide) fun t ts ht r => by simp only [factor,ht],
      hname.build (b := fun p => p.2.elim (fun q => .call p.1 q.1 q.2.1 q.2.2)
        (Sum.elim (fun q => .factorVar (.element p.1 q.1 q.2.1 q.2.2)) fun _ =>
          .factorVar (.name p.1)))
        (fun _ _ => trivial) ?_ (by rintro ⟨x,q | q | _⟩ <;> rfl) (by rintro ⟨x,q | q | _⟩ <;> rfl)⟩
    rintro d us ⟨⟨hn,he⟩,hkind⟩
    cases d with
    | call x l as r =>
      simp only [Tree.tokens,length_append,length_cons] at hn
      exact ⟨(x,.inl (l,as,r)),rfl,trivial,show as.tokens.length ≤ n by omega⟩
    | factorVar v =>
      cases v with
      | name x => exact ⟨(x,.inr (.inr ())),rfl,trivial,he⟩
      | element x l i r =>
        simp only [Tree.tokens,length_append,length_cons] at hn
        exact ⟨(x,.inr (.inl (l,i,r))),rfl,trivial,show i.tokens.length ≤ n by omega⟩
    | paren l => cases l.2.symm.trans hkind
    | integer x | fraction x => cases x.token.2.symm.trans hkind
  | integer =>
    refine ⟨_,Parses.agrees_expect (f := fun t ts => factor e (t :: ts)) (by decide) fun _ _ _ _ =>
      Iff.rfl,.build (b := fun p => .integer p.1)
      (.valued Numeral.token Numeral.value integerValue?
        (fun t ts r ht => ?_) integerValue?_eq_some Numeral.ext
        fun v => .nothing (Expr.integer v)) (fun _ _ => trivial) ?_ (fun _ => rfl) fun _ => rfl⟩
    · simp only [factor,ht]
      cases integerValue? t.lexeme with
      | none => simp
      | some v => exact ⟨fun h => ⟨v,rfl,h⟩,by rintro ⟨_,⟨⟩,h⟩; exact h⟩
    · rintro d us ⟨-,hkind⟩
      cases d with
      | integer x => exact ⟨(x,()),rfl,trivial⟩
      | factorVar v => cases v with | name x | element x => cases x.2.symm.trans hkind
      | call x | paren x => cases x.2.symm.trans hkind
      | fraction x => cases x.token.2.symm.trans hkind
  | decimal =>
    refine ⟨_,Parses.agrees_expect (f := fun t ts => factor e (t :: ts)) (by decide) fun _ _ _ _ =>
      Iff.rfl,.build (b := fun p => .fraction p.1)
      (.valued Fraction.token Fraction.value (fun s => Binary32.ofLiteral? s.toList)
        (fun t ts r ht => ?_) ?_ Fraction.ext
        fun v => .nothing (Expr.decimal v)) (fun _ _ => trivial) ?_ (fun _ => rfl) fun _ => rfl⟩
    · simp only [factor,ht]
      cases Binary32.ofLiteral? t.lexeme.toList with
      | none => simp
      | some v => exact ⟨fun h => ⟨v,rfl,h⟩,by rintro ⟨_,⟨⟩,h⟩; exact h⟩
    · refine fun t v => ⟨fun hv => ⟨⟨t,v,hv⟩,rfl,rfl⟩,?_⟩
      rintro ⟨x,rfl,rfl⟩
      exact x.written
    · rintro d us ⟨-,hkind⟩
      cases d with
      | fraction x => exact ⟨(x,()),rfl,trivial⟩
      | factorVar v => cases v with | name x | element x => cases x.2.symm.trans hkind
      | call x | paren x => cases x.2.symm.trans hkind
      | integer x => cases x.token.2.symm.trans hkind
  | leftParen =>
    refine ⟨parenthesized e,?_,.build (b := fun p => .paren p.1 p.2.1 p.2.2)
      (.seq (.leaf .leftParen) fun _ => .seq h fun d => .map (.leaf .rightParen) fun _ => d.meaning)
        (fun _ _ => trivial) ?_ (fun _ => rfl) fun _ => rfl⟩
    · intro ts r hts
      cases ts with
      | nil => cases hts
      | cons t ts => simp only [factor,show t.kind = _ from hts]
    · rintro d us ⟨⟨hn,he⟩,hkind⟩
      cases d with
      | paren l d r =>
        simp only [Tree.tokens,length_append,length_cons] at hn
        exact ⟨(l,d,r),rfl,trivial,
          ⟨show d.tokens.length ≤ n by omega,ends_leaf r (by decide) _⟩,trivial⟩
      | factorVar v => cases v with | name x | element x => cases x.2.symm.trans hkind
      | call x => cases x.2.symm.trans hkind
      | integer x | fraction x => cases x.token.2.symm.trans hkind
  | _ =>
    refine ⟨fail .unexpected,fun ts r hts => ?_,.failing (by rintro _ _ ⟨⟩) fun d us hR =>
      kindOf_ne_of_starts d rfl rfl us hR.2⟩
    cases ts with
    | nil => exact ⟨by rintro ⟨⟩,by rintro ⟨⟩⟩
    | cons t ts =>
      simp only [factor,show t.kind = _ from hts]
      exact ⟨by rintro ⟨⟩,by rintro ⟨⟩⟩

theorem parses_simple : Parses (Reader.simple e) (Tree.tokens (p := .simple)) Tree.meaning
    (fun _ _ => True) (EndsWithin (n + 1)) := by
  have hsum : Parses (Reader.sum e) (Tree.tokens (p := .level .sum)) Tree.meaning (fun _ _ => True)
    (EndsWithin (n + 1)) :=
    parses_leftGrouped (g := .sum) (parses_leftGrouped (g := .product) (parses_factor h))
  refine .build (b := fun p => p.2.elim (fun q => .relation p.1 q.1 q.2) fun _ => .single p.1)
    (.seq hsum fun s => parses_operator ⟨relation?_eq_some,fun h => h.2 ▸ relation?_symbolOf h.1⟩
      (fun op => .map hsum fun r => Expr.binary op s.meaning r) s.meaning)
        (fun _ => trivial) ?_ ?_ ?_
  · rintro d us ⟨hn,he⟩
    cases d with
    | single s =>
      refine ⟨(s,.inr ()),rfl,⟨hn,?_⟩,relation?_of_ends he⟩
      exact he.mono (by decide)
    | relation s o s' =>
      simp only [Tree.tokens,length_append,length_cons] at hn
      exact ⟨(s,.inl (o,s')),rfl,
        ⟨show s.tokens.length ≤ n + 1 by omega,
        ends_operator o (by rw [reach_relation o.is]; decide) _⟩,
        show s'.tokens.length ≤ n + 1 by omega,he.mono (by decide)⟩
  · rintro ⟨s,q | _⟩ <;> simp
  · rintro ⟨s,q | _⟩ <;> rfl

end

/-! An expression that names a variable or an element is a target. -/

namespace Tree

def target? : {p : Part} → Tree p → Option (Tree .target)
  | _, .plain s | _, .single s => s.target?
  | _, .chain d .stop => d.target?
  | _, .paren l e r => e.target?.map (.targetParen l · r)
  | _, .factorVar v => some (.targetVar v)
  | _, _ => none

def simple : Tree .target → Tree .simple
  | .targetVar v => .single (.chain (g := .sum) (.chain (g := .product) (.factorVar v) .stop) .stop)
  | .targetParen l t r =>
    .single (.chain (g := .sum) (.chain (g := .product) (.paren l (.plain t.simple) r) .stop) .stop)

theorem tokens_simple : (t : Tree .target) → t.simple.tokens = t.tokens
  | .targetVar v => by simp [simple]
  | .targetParen l t r => by simp [simple,t.tokens_simple]

theorem target?_simple : (t : Tree .target) → t.simple.target? = some t
  | .targetVar v => by simp [simple,target?]
  | .targetParen l t r => by simp [simple,target?,t.target?_simple]

end Tree

/-- The expression that a part means, if it means one. -/
def Part.expr? : {p : Part} → p.Meaning → Option Expr
  | .expression, e | .simple, e | .level _, e | .factor, e => some e
  | .target, _ | .var, _ | .more _, _ | .arguments, _ | .moreArguments, _ => none

theorem Level.expr?_meaning (x : g.operand.Meaning) : Part.expr? x = some (Level.expr x) := by
  cases g <;> rfl

theorem assignTo?_read (x : Place) : assignTo? x.read = some x.assign := by cases x <;> rfl

theorem assignTo?_assign (x : Place) (e : Expr) : assignTo? (x.assign e) = none := by
  cases x <;> rfl

theorem Tree.assignTo?_more : {g : Level} → (ds : Tree (.more g)) → {left : Expr} →
    assignTo? left = none →
    assignTo? (ds.meaning left) = none
  | _, .stop, _, h => h
  | _, .more _ _ ds, _, _ => ds.assignTo?_more rfl

theorem Tree.target?_spec {p : Part} (d : Tree p) {e : Expr} (he : Part.expr? d.meaning = some e) :
    assignTo? e = d.target?.map (·.meaning.assign) ∧ ∀ t, d.target? = some t →
      t.tokens = d.tokens := by
  induction d generalizing e with
  | plain s ih | single s ih => exact ih he
  | assign t q v =>
    cases he
    exact ⟨assignTo?_assign _ _,by simp [target?]⟩
  | @chain g d ds ih =>
    cases he
    cases ds with
    | stop =>
      obtain ⟨h,ht⟩ := ih (Level.expr?_meaning _)
      exact ⟨h,by simpa [target?] using ht⟩
    | more o d' ds => exact ⟨ds.assignTo?_more rfl,by simp [target?]⟩
  | paren l d r ih =>
    obtain ⟨h,ht⟩ := ih he
    refine ⟨by rw [h]; cases hd : d.target? <;> simp [target?,hd],?_⟩
    simp only [target?,Option.map_eq_some_iff]
    rintro _ ⟨t,hd,rfl⟩
    simp [ht t hd]
  | factorVar v =>
    cases he
    exact ⟨assignTo?_read _,by simp [target?]⟩
  | relation | call | integer | fraction =>
    cases he
    exact ⟨rfl,by simp [target?]⟩
  | targetVar | targetParen | name | element | stop | more | noArguments | firstArgument
  | lastArgument | nextArgument => cases he

/-- What may follow a simple expression. -/
def assignRest (e : Reader Expr) (left : Expr) : Reader Expr := do
  if (← peek) = .assign then
    match assignTo? left with
    | none => fail .notAssignable
    | some assign =>
      skip
      return assign (← e)
  else return left

theorem parses_assignRest
    (h : Parses e (Tree.tokens (p := .expression)) Tree.meaning (fun _ _ => True) (EndsWithin n))
    (s : Tree .simple) :
    Parses (assignRest e s.meaning)
      (Sum.elim (fun q : Leaf .assign × Expression => q.1.1 :: q.2.tokens) fun _ : Unit => [])
      (Sum.elim (fun q => s.target?.elim s.meaning fun t => t.meaning.assign q.2.meaning)
        fun _ => s.meaning)
      (Sum.elim (fun _ _ => s.target?.isSome = true) fun _ _ => True)
      (Sum.elim (fun q us => s.target?.isSome = true ∧ EndsWithin n q.2 us) fun _ us => kindOf us ≠
        .assign) := by
  let value : Reader Expr := s.target?.elim (fail .notAssignable) fun t => e >>= fun v =>
    pure (t.meaning.assign v)
  have hvalue : Parses value (Tree.tokens (p := .expression))
    (fun v => s.target?.elim s.meaning fun t => t.meaning.assign v.meaning)
      (fun _ _ => s.target?.isSome = true) fun v us => s.target?.isSome = true ∧
        EndsWithin n v us := by
    cases hs : s.target? with
    | none => exact .failing (by simp [value,hs,fail]) (by simp)
    | some t =>
      simp only [value,hs]
      exact (h.map t.meaning.assign).mono (fun _ => rfl) And.right
  refine .congr (.build (.ifNext (by decide) hvalue (.nothing s.meaning)) ?_ ?_
    (fun _ => rfl) fun _ => rfl) fun ts r => ?_
  · rintro (q | _) us hD
    · exact hD
    · trivial
  · simp
  · rw [assignRest,peek_bind,peek_bind,(s.target?_spec rfl).1]
    split
    · cases hs : s.target? with
      | none => simp [value,hs,fail,Bind.bind,StateT.bind,skip,Except.bind]
      | some t => simp only [value,hs,Option.map_some,Option.elim]
    · rfl

theorem parses_expression (n : Nat) :
    Parses (expression n) (Tree.tokens (p := .expression)) Tree.meaning (fun _ _ => True)
    (EndsWithin n) := by
  induction n with
  | zero =>
    refine .failing (by rintro _ _ ⟨⟩) fun d us hR => ?_
    have := d.length_pos rfl
    have := hR.1
    omega
  | succ n ih =>
    refine .image (b := fun p => p.2.elim (fun q => p.1.target?.map fun t => .assign t q.1 q.2)
      fun _ => some (.plain p.1))
      (.seq (parses_simple ih) fun s => parses_assignRest ih s) ?_ ?_ ?_
    · rintro ⟨s,q | _⟩ d hd
      · obtain ⟨t,hs,rfl⟩ := Option.map_eq_some_iff.mp hd
        simp [hs,(s.target?_spec rfl).2 t hs]
      · cases hd
        simp
    · rintro ⟨s,q | _⟩ us ⟨-,hD⟩
      · obtain ⟨t,hs⟩ := Option.isSome_iff_exists.mp hD
        simp_all
      · exact ⟨_,rfl,trivial⟩
    · rintro d us ⟨hn,he⟩
      cases d with
      | assign t q v =>
        have := t.length_pos rfl
        simp only [Tree.tokens,length_append,length_cons] at hn
        refine ⟨(t.simple,.inl (q,v)),by simp [t.target?_simple],⟨?_,ends_leaf q (by decide) _⟩,
          by rw [t.target?_simple]; rfl,?_,he⟩
        · rw [t.tokens_simple]
          omega
        · show v.tokens.length ≤ n
          omega
      | plain s => exact ⟨(s,.inr ()),rfl,⟨hn,he.mono (by decide)⟩,he.kindOf_ne (by decide)⟩

theorem parses_expr : Parses Reader.expr (Tree.tokens (p := .expression)) Tree.meaning
    (fun _ _ => True) fun _ us => Ends .expression us :=
  .fuel parses_expression fun _ => trivial

end

end Grammar
end CMinusF
