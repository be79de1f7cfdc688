import CMinusF.Proofs.Syntax.Grammar

/-! Readers put together from readers. For each way to do it: what is read from the tokens of a
tree, which trees span what was read, and that no two trees start together. -/
namespace CMinusF.Reader
open Grammar List
variable {α β δ ε ζ : Type} {x : Reader α} {tokens : δ → List Token} {meaning : δ → α}
  {D R : δ → List Token → Prop} {ts us : List Token} {a : α}

section
variable {f : α → Reader β} {ts' : List Token} {k : Token.Kind}

theorem bind_of_ok (h : x ts = .ok (a,ts')) : (x >>= f) ts = f a ts' := by
  simp only [Bind.bind,StateT.bind,Except.bind,h]

theorem bind_eq_ok {r : β × List Token} :
    (x >>= f) ts = .ok r ↔ ∃ a ts', x ts = .ok (a,ts') ∧ f a ts' = .ok r := by
  constructor
  · intro h
    cases hx : x ts with
    | error e =>
      simp only [Bind.bind,StateT.bind,hx] at h
      cases h
    | ok y => exact ⟨y.1,y.2,rfl,(bind_of_ok hx).symm.trans h⟩
  · rintro ⟨a,ts',hx,hf⟩
    rw [bind_of_ok hx,hf]

theorem peek_bind {g : Token.Kind → Reader β} : (peek >>= g) ts = g (kindOf ts) ts := rfl

theorem skip_bind {g : Unit → Reader β} {t : Token} : (skip >>= g) (t :: ts) = g () ts := rfl

theorem expect_leaf (t : Leaf k) (ts : List Token) :
    expect k (t.1 :: ts) = .ok (t.1,ts) := if_pos t.2

theorem expect_eq_ok {t : Token} : expect k ts = .ok (t,ts') ↔ t.kind = k ∧ ts = t :: ts' := by
  constructor
  · intro h
    cases ts with
    | nil => cases h
    | cons u us =>
      simp only [expect] at h
      grind
  · rintro ⟨hk,rfl⟩
    exact if_pos hk

theorem leaf_cons {l l' : Leaf k} (h : l.1 :: ts = l'.1 :: us) : l = l' ∧ ts = us :=
  ⟨Subtype.ext (cons.inj h).1,(cons.inj h).2⟩

end

/-- A reader takes trees from their tokens. `D` holds of each tree that is read and the tokens after
it; a tree for which `R` holds is read, and is the only one. -/
structure Parses (x : Reader α) (tokens : δ → List Token) (meaning : δ → α)
    (D R : δ → List Token → Prop) : Prop where
  reads : ∀ {d us}, R d us → x (tokens d ++ us) = .ok (meaning d,us)
  derives : ∀ {ts a us}, x ts = .ok (a,us) → ∃ d, D d us ∧ ts = tokens d ++ us ∧ meaning d = a
  unique : ∀ {d d' ts us}, tokens d ++ ts = tokens d' ++ us → R d ts → R d' us → d = d'

namespace Parses

theorem leaf (k : Token.Kind) : Parses (expect k)
    (fun t : Leaf k => [t.1]) (·.1) (fun _ _ => True) fun _ _ => True where
  reads {t us} _ := expect_leaf t us
  derives h := by
    obtain ⟨hk,rfl⟩ := expect_eq_ok.mp h
    exact ⟨⟨_,hk⟩,trivial,rfl,rfl⟩
  unique h _ _ := (leaf_cons h).1

theorem nothing (a : α) : Parses (pure a : Reader α)
    (fun _ : Unit => []) (fun _ => a) (fun _ _ => True) fun _ _ => True where
  reads _ := rfl
  derives h := by
    cases h
    exact ⟨(),trivial,rfl,rfl⟩
  unique _ _ _ := rfl

theorem failing (hx : ∀ ts r, x ts ≠ .ok r) (hR : ∀ d us, ¬ R d us) :
    Parses x tokens meaning D R where
  reads h := (hR _ _ h).elim
  derives h := (hx _ _ h).elim
  unique _ h := (hR _ _ h).elim

theorem mono {D' R' : δ → List Token → Prop} (h : Parses x tokens meaning D R)
    (hD : ∀ {d us}, D d us → D' d us) (hR : ∀ {d us}, R' d us → R d us) :
    Parses x tokens meaning D' R' where
  reads hr := h.reads (hR hr)
  derives hx := by
    obtain ⟨d,hd,hts,hm⟩ := h.derives hx
    exact ⟨d,hD hd,hts,hm⟩
  unique heq hr hr' := h.unique heq (hR hr) (hR hr')

theorem map (h : Parses x tokens meaning D R) (f : α → β) :
    Parses (x >>= fun a => pure (f a)) tokens (fun d => f (meaning d)) D R where
  reads hR := by rw [bind_of_ok (h.reads hR)]; rfl
  derives hx := by
    obtain ⟨a,us,ha,hend⟩ := bind_eq_ok.mp hx
    cases hend
    obtain ⟨d,hD,hts,rfl⟩ := h.derives ha
    exact ⟨d,hD,hts,rfl⟩
  unique := h.unique

theorem seq {f : α → Reader β} {tokens' : δ → ε → List Token} {meaning' : δ → ε → β}
    {D' R' : δ → ε → List Token → Prop} (h : Parses x tokens meaning D R)
    (h' : ∀ d, Parses (f (meaning d)) (tokens' d) (meaning' d) (D' d) (R' d)) :
    Parses (x >>= f) (fun p : δ × ε => tokens p.1 ++ tokens' p.1 p.2) (fun p => meaning' p.1 p.2)
      (fun p us => D p.1 (tokens' p.1 p.2 ++ us) ∧ D' p.1 p.2 us) fun p us =>
        R p.1 (tokens' p.1 p.2 ++ us) ∧ R' p.1 p.2 us where
  reads {p us} hR := by
    rw [append_assoc,bind_of_ok (h.reads hR.1)]
    exact (h' p.1).reads hR.2
  derives hx := by
    obtain ⟨a,vs,ha,hf⟩ := bind_eq_ok.mp hx
    obtain ⟨d,hD,rfl,rfl⟩ := h.derives ha
    obtain ⟨e,hD',rfl,rfl⟩ := (h' d).derives hf
    exact ⟨(d,e),⟨hD,hD'⟩,(append_assoc ..).symm,rfl⟩
  unique {p q ts us} heq hp hq := by
    obtain ⟨d,e⟩ := p
    obtain ⟨d',e'⟩ := q
    simp only [append_assoc] at heq
    obtain rfl := h.unique heq hp.1 hq.1
    rw [(h' d).unique (append_cancel_left heq) hp.2 hq.2]

theorem congr {y : Reader α} (h : Parses x tokens meaning D R)
    (hy : ∀ ts r, y ts = .ok r ↔ x ts = .ok r) : Parses y tokens meaning D R where
  reads hr := (hy _ _).mpr (h.reads hr)
  derives hx := h.derives ((hy _ _).mp hx)
  unique := h.unique

/-- Trees of another type, some of them made from those that are read. -/
theorem image {b : δ → Option ε} {tokens' : ε → List Token} {meaning' : ε → α}
    {D' R' : ε → List Token → Prop} (h : Parses x tokens meaning D R)
    (ht : ∀ {d e}, b d = some e → tokens' e = tokens d ∧ meaning' e = meaning d)
    (hD : ∀ {d us}, D d us → ∃ e, b d = some e ∧ D' e us)
        (hR : ∀ {e us}, R' e us → ∃ d, b d = some e ∧ R d us) :
    Parses x tokens' meaning' D' R' where
  reads hr := by
    obtain ⟨d,hd,hr⟩ := hR hr
    rw [(ht hd).1,(ht hd).2]
    exact h.reads hr
  derives hx := by
    obtain ⟨d,hd,rfl,rfl⟩ := h.derives hx
    grind
  unique heq he he' := by
    obtain ⟨d,hd,hr⟩ := hR he
    obtain ⟨d',hd',hr'⟩ := hR he'
    rw [(ht hd).1,(ht hd').1] at heq
    obtain rfl := h.unique heq hr hr'
    exact Option.some.inj (hd.symm.trans hd')

theorem build {b : δ → ε} {tokens' : ε → List Token} {meaning' : ε → α}
    {D' R' : ε → List Token → Prop} (h : Parses x tokens meaning D R)
    (hD : ∀ {d us}, D d us → D' (b d) us) (hR : ∀ {e us}, R' e us → ∃ d, b d = e ∧ R d us)
    (ht : ∀ d, tokens' (b d) = tokens d) (hm : ∀ d, meaning' (b d) = meaning d) :
    Parses x tokens' meaning' D' R' := by
  refine h.image (b := fun d => some (b d)) ?_ (fun hd => ⟨_,rfl,hD hd⟩) fun hr => ?_
  · rintro d _ ⟨⟩
    exact ⟨ht d,hm d⟩
  · obtain ⟨d,rfl,hd⟩ := hR hr
    exact ⟨d,rfl,hd⟩

theorem ofKind (h : ∀ k, ∃ y : Reader α, (∀ ts r, kindOf ts = k → (x ts = .ok r ↔ y ts = .ok r)) ∧
      Parses y tokens meaning (fun d us => kindOf (tokens d ++ us) = k → D d us) fun d us =>
        R d us ∧ kindOf (tokens d ++ us) = k) :
    Parses x tokens meaning D R where
  reads {d us} hR := by
    obtain ⟨y,hy,h⟩ := h (kindOf (tokens d ++ us))
    exact (hy _ _ rfl).mpr (h.reads ⟨hR,rfl⟩)
  derives {ts a us} hx := by
    obtain ⟨y,hy,h⟩ := h (kindOf ts)
    obtain ⟨d,hD,hts,hm⟩ := h.derives ((hy _ _ rfl).mp hx)
    exact ⟨d,hD (by rw [hts]),hts,hm⟩
  unique {d d' ts us} heq hd hd' := by
    obtain ⟨y,hy,h⟩ := h (kindOf (tokens d ++ ts))
    exact h.unique heq ⟨hd,rfl⟩ ⟨hd',by rw [heq]⟩

theorem agrees_expect {k : Token.Kind} (hk : k ≠ .eof) {f : Token → Reader α}
    (h : ∀ t ts, t.kind = k → ∀ r, x (t :: ts) = .ok r ↔ f t ts = .ok r) (ts : List Token)
    (r : α × List Token) (hts : kindOf ts = k) :
    x ts = .ok r ↔ (expect k >>= f) ts = .ok r := by
  cases ts with
  | nil => exact absurd hts.symm hk
  | cons t ts => rw [bind_of_ok (expect_leaf ⟨t,hts⟩ ts),h t ts hts]

theorem ifNext {c : Token.Kind} (hc : c ≠ .eof) {y : Reader α} {tokens' : ε → List Token}
    {meaning' : ε → α} {D' R' : ε → List Token → Prop} (h : Parses x tokens meaning D R)
    (h' : Parses y tokens' meaning' D' R') :
    Parses (do if (← peek) = c then skip; x else y)
    (Sum.elim (fun p : Leaf c × δ => p.1.1 :: tokens p.2) tokens')
      (Sum.elim (fun p => meaning p.2) meaning')
      (Sum.elim (fun p => D p.2) fun e us => kindOf (tokens' e ++ us) ≠ c ∧ D' e us)
      (Sum.elim (fun p => R p.2) fun e us => kindOf (tokens' e ++ us) ≠ c ∧ R' e us) := by
  refine ofKind fun k => ?_
  by_cases hk : k = c
  · subst hk
    refine ⟨expect k >>= fun _ => x,agrees_expect hc fun t ts ht r => ?_,
      ((leaf k).seq fun _ => h).build (b := .inl) (fun hD _ => hD.2) ?_ (fun _ => rfl) fun _ => rfl⟩
    · rw [peek_bind,kindOf,if_pos ht,skip_bind]
    · rintro (p | e) us ⟨hR,hkind⟩
      · exact ⟨p,rfl,trivial,hR⟩
      · exact absurd hkind hR.1
  · refine ⟨y,fun ts r hts => ?_,h'.build (b := .inr) ?_ ?_ (fun _ => rfl) fun _ => rfl⟩
    · rw [peek_bind,if_neg (hts ▸ hk)]
    · grind
    · rintro (p | e) us ⟨hR,hkind⟩
      · exact absurd (hkind.symm.trans p.1.2) hk
      · exact ⟨e,rfl,hR.2⟩

theorem valued {k : Token.Kind} {ν : Type} (token : ε → Leaf k) (value : ε → ν)
    (v? : String → Option ν) {f : Token → Reader α} {rest : ν → Reader α} {meaning : ν → δ → α}
    (hf : ∀ t ts r, t.kind = k → (f t ts = .ok r ↔ ∃ v, v? t.lexeme = some v ∧ rest v ts = .ok r))
    (hv : ∀ (t : Leaf k) v, v? t.1.lexeme = some v ↔ ∃ e, token e = t ∧ value e = v)
        (he : ∀ {e e'}, token e = token e' → e = e')
    (h : ∀ v, Parses (rest v) tokens (meaning v) D R) :
    Parses (expect k >>= f) (fun p : ε × δ => (token p.1).1 :: tokens p.2)
    (fun p => meaning (value p.1) p.2) (fun p => D p.2) fun p => R p.2 where
  reads {p us} hr := by
    rw [cons_append,bind_of_ok (expect_leaf (token p.1) _)]
    exact (hf _ _ _ (token p.1).2).mpr ⟨_,(hv _ _).mpr ⟨_,rfl,rfl⟩,(h _).reads hr⟩
  derives hx := by
    obtain ⟨t,vs,ht,h1⟩ := bind_eq_ok.mp hx
    obtain ⟨hk,rfl⟩ := expect_eq_ok.mp ht
    obtain ⟨v,hv',h2⟩ := (hf _ _ _ hk).mp h1
    obtain ⟨d,hD,rfl,rfl⟩ := (h v).derives h2
    obtain ⟨e,he,rfl⟩ := (hv ⟨t,hk⟩ v).mp hv'
    exact ⟨(e,d),hD,by rw [he]; rfl,rfl⟩
  unique {p q ts us} heq hp hq := by
    obtain ⟨ht,heq⟩ := leaf_cons heq
    rw [Prod.ext_iff]
    exact ⟨he ht,(h (value p.1)).unique heq hp hq⟩

theorem fuel {y : Nat → Reader α} {D : Nat → δ → List Token → Prop} {D' : δ → List Token → Prop}
    (h : ∀ n, Parses (y n) tokens meaning (D n) fun d us => (tokens d).length ≤ n ∧ R d us)
    (hD : ∀ {d us}, D (tokens d ++ us).length d us → D' d us) :
    Parses (fun ts => y ts.length ts) tokens meaning D' R where
  reads hr := (h _).reads ⟨by simp,hr⟩
  derives hx := by
    obtain ⟨d,hd,rfl,hm⟩ := (h _).derives hx
    exact ⟨d,hD hd,rfl,hm⟩
  unique {d d' _ _} heq hr hr' :=
    (h (max (tokens d).length (tokens d').length)).unique heq ⟨Nat.le_max_left ..,hr⟩
    ⟨Nat.le_max_right ..,hr'⟩

section
variable (h : Parses x tokens meaning D R) {F : List Token → Prop}
include h

/-- Items one after another, as long as the next token starts one; `first` is what they start with.
-/
theorem many (starts first : Token.Kind → Bool) {P Q : δ → Prop} (hD : ∀ {d us}, D d us → P d)
    (hR : ∀ {d us}, Q d → F us → R d us) (hfirst : ∀ {k}, first k = true → starts k = true)
      (hstart : ∀ d us, first (kindOf (tokens d ++ us)) = true)
    (hfollow : ∀ {ts}, first (kindOf ts) = true → F ts) (heof : starts .eof = false) :
    Parses (Reader.many starts x) (flatMap tokens) (List.map meaning)
      (fun ds us => (∀ d ∈ ds, P d) ∧ starts (kindOf us) = false)
      fun ds us => (∀ d ∈ ds, Q d) ∧ starts (kindOf us) = false ∧ F us := by
  have hpos : ∀ d, 0 < (tokens d).length := by
    refine fun d => length_pos_iff.mpr fun hnil => ?_
    have := hfirst (hstart d [])
    rw [hnil,append_nil,kindOf,heof] at this
    cases this
  refine fuel (D := fun n ds us => (∀ d ∈ ds, P d) ∧
    (starts (kindOf us) = false ∨ n ≤ (ds.flatMap tokens).length)) (fun n => ?_) ?_
  · induction n with
    | zero =>
      refine (nothing []).build (b := fun _ => []) (fun _ => by simp) ?_ (fun _ => rfl) fun _ => rfl
      rintro ds us ⟨hlen,-⟩
      cases ds with
      | nil => exact ⟨(),rfl,trivial⟩
      | cons d ds =>
        have := hpos d
        simp only [flatMap_cons,length_append] at hlen
        omega
    | succ n ih =>
      refine ofKind fun k => ?_
      cases hk : starts k with
      | true =>
        refine ⟨_,fun ts r hts => by rw [upTo,peek_bind,hts,hk,if_pos rfl],
          (h.seq fun d => ih.map (meaning d :: ·)).build (b := fun p => p.1 :: p.2) ?_ ?_
            (fun _ => rfl) fun _ => rfl⟩
        · rintro ⟨d,ds⟩ us ⟨hd,hds,hlast⟩ -
          refine ⟨forall_mem_cons.mpr ⟨hD hd,hds⟩,hlast.imp_right fun hlen => ?_⟩
          have := hpos d
          simp only [flatMap_cons,length_append] at hlen ⊢
          omega
        · rintro ds us ⟨⟨hlen,hds,hstop,hF⟩,hkind⟩
          cases ds with
          | nil =>
            rw [← hkind] at hk
            exact absurd hk (by rw [flatMap_nil,nil_append,hstop]; decide)
          | cons d ds =>
            obtain ⟨hd,hds⟩ := forall_mem_cons.mp hds
            have hrest : (ds.flatMap tokens).length ≤ n := by
              have := hpos d
              simp only [flatMap_cons,length_append] at hlen
              omega
            refine ⟨(d,ds),rfl,hR hd ?_,hrest,hds,hstop,hF⟩
            cases ds with
            | nil => exact hF
            | cons d' ds =>
              rw [flatMap_cons,append_assoc]
              exact hfollow (hstart d' _)
      | false =>
        refine ⟨_,fun ts r hts => by rw [upTo,peek_bind,hts,hk,if_neg Bool.false_ne_true],
          (nothing []).build (b := fun _ => []) ?_ ?_ (fun _ => rfl) fun _ => rfl⟩
        · intro _ us _ hkind
          exact ⟨by simp,.inl (by rw [show kindOf us = k from hkind,hk])⟩
        · rintro ds us ⟨-,hkind⟩
          cases ds with
          | nil => exact ⟨(),rfl,trivial⟩
          | cons d ds =>
            rw [flatMap_cons,append_assoc] at hkind
            have := hfirst (hstart d (ds.flatMap tokens ++ us))
            rw [hkind,hk] at this
            cases this
  · rintro ds us ⟨hds,hlast⟩
    refine ⟨hds,hlast.elim id fun hn => ?_⟩
    -- no token is left
    rw [length_append] at hn
    rw [length_eq_zero_iff.mp (by omega : us.length = 0),kindOf,heof]

theorem list {Q : δ → Prop} (hR : ∀ {d us}, Q d → F us → R d us)
    (hfollow : ∀ {ts}, kindOf ts = .comma → F ts) :
    Parses (Reader.list x)
    (fun p : δ × List (Leaf .comma × δ) => tokens p.1 ++ p.2.flatMap fun q => q.1.1 :: tokens q.2)
      (fun p => meaning p.1 :: p.2.map fun q => meaning q.2) (fun _ _ => True)
      fun p us => (Q p.1 ∧ ∀ q ∈ p.2, Q q.2) ∧ F us ∧ kindOf us ≠ .comma := by
  refine fuel (D := fun _ _ _ => True) (fun n => ?_) fun _ => trivial
  induction n with
  | zero =>
    refine (h.map ([·])).build (b := fun d => (d,[])) (fun _ => trivial) ?_ (by simp) fun _ => rfl
    rintro ⟨d,ds⟩ us ⟨hlen,hQ,hF,-⟩
    cases ds with
    | nil => exact ⟨d,rfl,hR hQ.1 hF⟩
    | cons => simp at hlen
  | succ n ih =>
    refine (h.seq fun d => (ih.map (meaning d :: ·)).ifNext (c := .comma) (by decide)
      (nothing [meaning d])).build
      (b := fun p => (p.1,p.2.elim (fun q => (q.1,q.2.1) :: q.2.2) fun _ => []))
        (fun _ => trivial) ?_ ?_ ?_
    · rintro ⟨d,_ | ⟨⟨c,e⟩,es⟩⟩ us ⟨hlen,⟨hd,hQ⟩,hF,hne⟩
      · exact ⟨(d,.inr ()),rfl,hR hd hF,hne,trivial⟩
      · simp only [flatMap_cons,length_append,List.length_cons] at hlen
        exact ⟨(d,.inl (c,e,es)),rfl,hR hd (hfollow c.2),by dsimp only; rw [length_append]; omega,
          forall_mem_cons.mp hQ,hF,hne⟩
    · rintro ⟨d,⟨c,e,es⟩ | _⟩ <;> simp
    · rintro ⟨d,⟨c,e,es⟩ | _⟩ <;> rfl

end

end Parses
end CMinusF.Reader
