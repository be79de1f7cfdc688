import CMinusF.Token.Scan
import Mathlib.Data.List.Infix
import Mathlib.Data.List.TakeWhile

/-! Reading accounts for every character: a text is its lexemes in order with gaps of white space
and comments between them, each lexeme is the longest of its family that starts where it stands, and
its token says where that is. -/
namespace CMinusF.Token
open Text List
variable {c : Char} {cs ds rest : List Char} {k : Kind}

/-! Gaps. -/

/-- White space and comments that end. -/
inductive Filler : List Char → Prop where
  | nil : Filler []
  | blank {c : Char} {g : List Char} : isBlank c = true → Filler g → Filler (c::g)
  | line {cs g : List Char} : '\n' ∉ cs → Filler g → Filler ('/' :: '/' :: (cs ++ '\n' :: g))
  | block {cs g : List Char} : ¬['*','/'] <:+: cs → Filler g →
      Filler ('/' :: '*' :: (cs ++ '*' :: '/' :: g))

/-- A comment that goes on to the end of the text. -/
inductive Unfinished : List Char → Prop where
  | line {cs : List Char} : '\n' ∉ cs → Unfinished ('/' :: '/' :: cs)
  | block {cs : List Char} : ¬['*','/'] <:+: cs → Unfinished ('/' :: '*' :: cs)

def LastGap (g : List Char) : Prop := Filler g ∨ ∃ f u, g = f ++ u ∧ Filler f ∧ Unfinished u

/-- White space or a comment starts the text. -/
def OpensGap (cs : List Char) : Prop :=
  cs.head?.any isBlank = true ∨ ['/','/'] <+: cs ∨ ['/','*'] <+: cs

/-- A gap that ends where a lexeme starts, or with the text. -/
def Skips (x : List Char × List Char) : Prop :=
  x.2 = [] ∧ LastGap x.1 ∨ x.2 ≠ [] ∧ Filler x.1 ∧ ¬OpensGap x.2

theorem Skips.prepend {g r h : List Char} (hs : Skips (g,r))
    (hf : ∀ {f}, Filler f → Filler (h ++ f)) : Skips (h ++ g,r) := by
  rcases hs with ⟨hr,hg | ⟨f,u,rfl,hff,hu⟩⟩ | ⟨hr,hg,ho⟩
  · exact .inl ⟨hr,.inl (hf hg)⟩
  · exact .inl ⟨hr,.inr ⟨h ++ f,u,by simp,hf hff,hu⟩⟩
  · exact .inr ⟨hr,hf hg,ho⟩

/-- What is read as white space, or inside a comment up to its end or that of the text. -/
def Gap.Spec : Gap → List Char × List Char → Prop
  | .blank, x => Skips x
  | .lineComment, x =>
    x.2 = [] ∧ '\n' ∉ x.1 ∨ ∃ cs g, x.1 = cs ++ '\n' :: g ∧ '\n' ∉ cs ∧ Skips (g,x.2)
  | .blockComment, x => x.2 = [] ∧ ¬['*','/'] <:+: x.1 ∨
    ∃ cs g, x.1 = cs ++ '*' :: '/' :: g ∧ ¬['*','/'] <:+: cs ∧ Skips (g,x.2)

/-- One more character in front of a comment's text ends it only together with the next one. -/
theorem not_infix_cons (h : ¬['*','/'] <:+: cs) (hc : c = '*' → ∀ es, cs ≠ '/' :: es) :
    ¬['*','/'] <:+: c::cs := by
  rw [infix_cons_iff]
  rintro (⟨t,ht⟩ | hi)
  · obtain ⟨rfl,rfl⟩ := cons.inj ht
    exact hc rfl t rfl
  · exact h hi

theorem splitGap_spec (g : Gap) (cs : List Char) : g.Spec (splitGap g cs) := by
  fun_induction splitGap g cs with
  | case1 g =>
    cases g with
    | blank => exact .inl ⟨rfl,.inl .nil⟩
    | lineComment => exact .inl ⟨rfl,by simp⟩
    | blockComment => exact .inl ⟨rfl,by simp⟩
  | case2 cs r ih =>
    rcases ih with ⟨hr,hn⟩ | ⟨ds,g,hg,hn,hs⟩
    · exact .inl ⟨hr,.inr ⟨[],_,rfl,.nil,.line hn⟩⟩
    · have := hs.prepend (h := '/' :: '/' :: (ds ++ ['\n'])) fun hf => by
        simpa using Filler.line hn hf
      simpa [Gap.Spec,r,hg] using this
  | case3 cs r ih =>
    rcases ih with ⟨hr,hn⟩ | ⟨ds,g,hg,hn,hs⟩
    · exact .inl ⟨hr,.inr ⟨[],_,rfl,.nil,.block hn⟩⟩
    · have := hs.prepend (h := '/' :: '*' :: (ds ++ ['*','/'])) fun hf => by
        simpa using Filler.block hn hf
      simpa [Gap.Spec,r,hg] using this
  | case4 c cs _ _ hc r ih => exact Skips.prepend (h := [c]) ih (.blank hc)
  | case5 c cs hline hblock hc =>
    refine .inr ⟨by simp,.nil,?_⟩
    rintro (hb | ⟨t,ht⟩ | ⟨t,ht⟩)
    · exact hc (by simpa using hb)
    · obtain ⟨rfl,rfl⟩ := cons.inj ht
      exact hline t rfl rfl
    · obtain ⟨rfl,rfl⟩ := cons.inj ht
      exact hblock t rfl rfl
  | case6 c cs r ih =>
    change Gap.Spec _ r at ih
    by_cases hc : c = '\n'
    · rw [if_pos hc] at ih
      exact .inr ⟨[],r.1,by rw [hc]; rfl,by simp,ih⟩
    · rw [if_neg hc] at ih
      have hcons : ∀ ds, '\n' ∉ ds → '\n' ∉ c::ds := fun ds hd => by simp [hd,Ne.symm hc]
      rcases ih with ⟨hr,hn⟩ | ⟨ds,g,hg,hn,hs⟩
      · exact .inl ⟨hr,hcons _ hn⟩
      · exact .inr ⟨c::ds,g,by simp [hg],hcons _ hn,hs⟩
  | case7 cs r ih => exact .inr ⟨[],_,rfl,by simp,ih⟩
  | case8 c cs hend r ih =>
    change Gap.Spec _ r at ih
    have happ : r.1 ++ r.2 = cs := splitGap_append .blockComment cs
    rcases ih with ⟨hr,hn⟩ | ⟨ds,g,hg,hn,hs⟩
    · refine .inl ⟨hr,not_infix_cons hn fun hc es he => hend (es ++ r.2) hc ?_⟩
      rw [← happ,he,cons_append]
    · refine .inr ⟨c::ds,g,by simp [hg],not_infix_cons hn fun hc es he => ?_,hs⟩
      grind

/-! Lexemes. -/

inductive Family where
  | word | number | operator | other
deriving DecidableEq

def Kind.family : Kind → Family
  | .eof | .illegal => .other
  | .identifier | .intKey | .floatKey | .voidKey | .returnKey | .ifKey | .elseKey | .whileKey =>
    .word
  | .integer | .decimal => .number
  | _ => .operator

def IsWord (cs : List Char) : Prop :=
  ∃ c ds, cs = c::ds ∧ isWordStart c = true ∧ ∀ d ∈ ds, isWordPart d = true

def AreDigits (cs : List Char) : Prop := ∀ c ∈ cs, isDigit c = true

/-- Digits with a point, and on one side of it at least one digit. -/
def IsDecimal (cs : List Char) : Prop :=
  ∃ whole rest, cs = whole ++ '.' :: rest ∧ AreDigits whole ∧ AreDigits rest ∧
    (whole ≠ [] ∨ rest ≠ [])

/-- The lexemes of a kind: a whole word may be a keyword, and operators are spelled as they are
named. -/
def Kind.Spells (k : Kind) (cs : List Char) : Prop :=
  match k.family with
  | .word => IsWord cs ∧ (keyword? (String.ofList cs)).getD .identifier = k
  | .number => k = .integer ∧ cs ≠ [] ∧ AreDigits cs ∨ k = .decimal ∧ IsDecimal cs
  | .operator => cs = k.name.toList
  | .other => k = .illegal ∧ cs.length = 1

/-- The lexeme at the front of a text: none of its family is longer, and it is illegal only if no
other can be read. -/
structure Kind.Longest (k : Kind) (cs rest : List Char) : Prop where
  spells : k.Spells cs
  longest : ∀ (k' : Kind) (ds : List Char), k'.Spells ds → ds <+: cs ++ rest →
    k'.family = k.family →
    ds.length ≤ cs.length
  legal : k = .illegal → ∀ (k' : Kind) (ds : List Char), k'.Spells ds → ds <+: cs ++ rest →
    k' = .illegal

def Kind.ReadAs (k : Kind) : List Char → Prop
  | [] => False
  | c::ds => ds = [] ∧ (single? c = some k ∨ (extensible? c).map Prod.fst = some k) ∨
    ds = ['='] ∧ (extensible? c).map Prod.snd = some k

instance (k : Kind) (cs : List Char) : Decidable (k.ReadAs cs) := by
  cases cs <;> unfold Kind.ReadAs <;> infer_instance

theorem Kind.readAs_name (hk : k.family = .operator) : k.ReadAs k.name.toList := by
  revert hk
  cases k <;> decide

theorem name_of_single? (h : single? c = some k) :
    k.family = .operator ∧ k.name.toList = [c] ∧ extensible? c = none := by
  unfold single? at h
  split at h <;> cases h <;> decide

theorem name_of_extensible? {alone extended : Kind} (h : extensible? c = some (alone,extended)) :
    (alone = .illegal ∧ c = '!' ∨ alone.family = .operator ∧ alone.name.toList = [c]) ∧
    extended.family = .operator ∧
      extended.name.toList = [c,'='] ∧ single? c = none := by
  unfold extensible? at h
  split at h <;> cases h <;> decide

theorem takeWhile_longest {p : Char → Bool} (h : ds <+: cs) (hp : ∀ c ∈ ds, p c = true) :
    ds.length ≤ (cs.takeWhile p).length := by
  obtain ⟨t,rfl⟩ := h
  simp_all

theorem number_of_decimal {whole : List Char} (hw : AreDigits whole) :
    number (whole ++ '.' :: rest) = (.decimal,whole ++ '.' :: rest.takeWhile isDigit) := by
  have hpoint : isDigit '.' = false := by decide
  simp only [number,takeWhile_append_of_pos hw,dropWhile_append_of_pos hw,
    takeWhile_cons,dropWhile_cons,hpoint,Bool.false_eq_true,↓reduceIte,append_nil]

/-- No number at the front of a text is longer than the one that is read. -/
theorem number_longest (hk : k.family = .number) (h : k.Spells ds) (hp : ds <+: cs) :
    ds.length ≤ (number cs).2.length := by
  rw [Kind.Spells,hk] at h
  rcases h with ⟨-,-,hd⟩ | ⟨-,whole,rest,rfl,hw,hr,-⟩
  · refine Nat.le_trans (takeWhile_longest hp hd) ?_
    unfold number
    split <;> simp
  · obtain ⟨t,rfl⟩ := hp
    rw [append_assoc,cons_append,number_of_decimal hw]
    have := takeWhile_longest (prefix_append rest t) hr
    simpa using this

theorem number_spells (h : startsNumber c cs = true) :
    (number (c::cs)).1.family = .number ∧ (number (c::cs)).1.Spells (number (c::cs)).2 ∧
    (number (c::cs)).2 <+: c::cs := by
  have hdigits : ∀ ds : List Char, AreDigits (ds.takeWhile isDigit) :=
    fun ds d hd => mem_takeWhile_imp hd
  have happ := takeWhile_append_dropWhile (p := isDigit) (l := c::cs)
  by_cases hc : isDigit c = true
  · have hne : (c::cs).takeWhile isDigit ≠ [] := by simp [hc]
    unfold number
    split
    · rename_i rest hrest
      rw [hrest] at happ
      refine ⟨rfl,.inr ⟨rfl,_,_,rfl,hdigits _,hdigits _,.inl hne⟩,?_⟩
      refine ⟨rest.dropWhile isDigit,?_⟩
      simp_all
    · exact ⟨rfl,.inl ⟨rfl,hne,hdigits _⟩, takeWhile_prefix _⟩
  · simp only [startsNumber,hc,Bool.false_or,Bool.and_eq_true,beq_iff_eq] at h
    obtain ⟨rfl,hd⟩ := h
    have hnum : number ('.' :: cs) = (.decimal,'.' :: cs.takeWhile isDigit) :=
      number_of_decimal (by simp [AreDigits] : AreDigits [])
    rw [hnum]
    refine ⟨rfl,.inr ⟨rfl,[],_,rfl,by simp [AreDigits],hdigits _,.inr ?_⟩,?_⟩
    · cases cs with
      | nil => cases hd
      | cons d ds => simpa using hd
    · exact cons_prefix_cons.mpr ⟨rfl, takeWhile_prefix _⟩

theorem startsNumber_of_spells (hk : k.family = .number) (h : k.Spells ds)
    (hp : ds <+: c::cs) : startsNumber c cs = true := by
  rw [Kind.Spells,hk] at h
  rcases h with ⟨-,hne,hd⟩ | ⟨-,whole,rest,rfl,hw,hr,hne⟩
  · obtain ⟨d,ds,rfl⟩ := exists_cons_of_ne_nil hne
    obtain ⟨rfl,-⟩ := cons_prefix_cons.mp hp
    simp [startsNumber,hd d mem_cons_self]
  · cases whole with
    | cons d whole =>
      obtain ⟨rfl,-⟩ := cons_prefix_cons.mp hp
      simp [startsNumber,hw d mem_cons_self]
    | nil =>
      obtain ⟨d,rest,rfl⟩ := exists_cons_of_ne_nil (hne.resolve_left (by simp))
      obtain ⟨rfl,t,rfl⟩ := cons_prefix_cons.mp hp
      simp [startsNumber,hr d mem_cons_self]

theorem family_of_keyword? {word : String} (h : Kind.keyword? word = some k) :
    k.family = .word := by
  unfold Kind.keyword? at h
  split at h <;> cases h <;> rfl

theorem Kind.Spells.operator (h : k.Spells ds) (hk : k.family = .operator)
    (hp : ds <+: c::cs) : ds = [c] ∧ (single? c = some k ∨ (extensible? c).map Prod.fst = some k) ∨
      ds = [c,'='] ∧ (extensible? c).isSome ∧ ∃ rest, cs = '=' :: rest := by
  rw [Kind.Spells,hk] at h
  have hr := h ▸ readAs_name hk
  match ds,hr with
  | d::ds,hr =>
    obtain ⟨rfl,t,ht⟩ := cons_prefix_cons.mp hp
    rcases hr with ⟨rfl,hr⟩ | ⟨rfl,hr⟩
    · exact .inl ⟨rfl,hr⟩
    · exact .inr ⟨rfl,by cases he : extensible? d <;> simp_all,t,ht.symm⟩

theorem Kind.Spells.ne_nil (h : k.Spells cs) : cs ≠ [] := by
  rintro rfl
  cases hk : k.family with
  | word =>
    rw [Kind.Spells,hk] at h
    obtain ⟨⟨c,ds,hc,-⟩,-⟩ := h
    cases hc
  | number =>
    rw [Kind.Spells,hk] at h
    rcases h with ⟨-,hne,-⟩ | ⟨-,whole,rest,hc,-⟩
    · exact hne rfl
    · simp at hc
  | operator =>
    rw [Kind.Spells,hk] at h
    exact (h ▸ readAs_name hk : k.ReadAs [])
  | other =>
    rw [Kind.Spells,hk] at h
    cases h.2

theorem operator_longest (hf : k.family = .operator) (hn : k.name.toList = cs)
    (hmax : ∀ (k' : Kind) (ds : List Char), k'.Spells ds → k'.family = .operator →
      ds <+: cs ++ rest → ds.length ≤ cs.length) :
    k.Longest cs rest := by
  refine ⟨?_,fun k' ds hs hp hk => hmax k' ds hs (hk.trans hf) hp,fun hi => ?_⟩
  · rw [Kind.Spells,hf]
    exact hn.symm
  · rw [hi] at hf
    cases hf

theorem illegal_longest (hw : isWordStart c = false) (hn : startsNumber c cs = false)
    (ho : ∀ (k : Kind) (ds : List Char), k.family = .operator → k.Spells ds → ¬ds <+: c::cs) :
    Kind.illegal.Longest [c] cs := by
  refine ⟨⟨rfl,rfl⟩,fun k ds hs hp hf => ?_,fun _ k ds hs hp => ?_⟩
  · rw [Kind.Spells,hf] at hs
    exact Nat.le_of_eq hs.2
  · cases hf : k.family with
    | word =>
      rw [Kind.Spells,hf] at hs
      obtain ⟨⟨d,ds,rfl,hd,-⟩,-⟩ := hs
      grind
    | number =>
      have := startsNumber_of_spells hf hs (show ds <+: c::cs from hp)
      rw [hn] at this
      cases this
    | operator => exact absurd hp (ho k ds hf hs)
    | other =>
      rw [Kind.Spells,hf] at hs
      exact hs.1

theorem word_longest (cs : List Char) (hc : isWordStart c = true) :
    ((Kind.keyword? (String.ofList (c :: cs.takeWhile isWordPart))).getD .identifier).Longest
      (c :: cs.takeWhile isWordPart)
      (cs.dropWhile isWordPart) := by
  have hfam : ((Kind.keyword? (String.ofList (c :: cs.takeWhile isWordPart))).getD
      .identifier).family = .word := by
    cases hk : Kind.keyword? (String.ofList (c :: cs.takeWhile isWordPart)) with
    | none => rfl
    | some k => exact family_of_keyword? hk
  refine ⟨?_,fun k ds hs hp hf => ?_,fun hi => ?_⟩
  · rw [Kind.Spells,hfam]
    exact ⟨⟨c,_,rfl,hc,fun d hd => mem_takeWhile_imp hd⟩,rfl⟩
  · rw [Kind.Spells,hf.trans hfam] at hs
    obtain ⟨⟨d,ds,rfl,-,hds⟩,-⟩ := hs
    rw [cons_append,takeWhile_append_dropWhile] at hp
    exact Nat.succ_le_succ (takeWhile_longest (cons_prefix_cons.mp hp).2 hds)
  · rw [hi] at hfam
    cases hfam

/-- The lexeme that is read stands at the front of the text and is the longest. -/
theorem lexemeAt_longest (c : Char) (cs : List Char) :
    ∃ rest, c::cs = (lexemeAt c cs).2 ++ rest ∧
      (lexemeAt c cs).1.Longest (lexemeAt c cs).2 rest := by
  unfold lexemeAt
  split
  · rename_i k hk
    obtain ⟨hfam,hname,hext⟩ := name_of_single? hk
    refine ⟨cs,rfl,operator_longest hfam hname fun k' ds hs hf hp => ?_⟩
    rcases hs.operator hf hp with ⟨rfl,-⟩ | ⟨-,he,-⟩
    · exact Nat.le_refl _
    · simp [hext] at he
  · rename_i hsingle
    split
    · rename_i alone extended hext
      obtain ⟨halone,hfam,hname,-⟩ := name_of_extensible? hext
      split
      · rename_i rest
        refine ⟨rest,rfl,operator_longest hfam hname fun k' ds hs hf hp => ?_⟩
        rcases hs.operator hf hp with ⟨rfl,-⟩ | ⟨rfl,-⟩
        · exact Nat.le_succ 1
        · exact Nat.le_refl 2
      · rename_i hne
        refine ⟨cs,rfl,?_⟩
        rcases halone with ⟨rfl,rfl⟩ | ⟨hfam,hname⟩
        · refine illegal_longest (by decide) rfl fun k ds hk hs hp => ?_
          rcases hs.operator hk hp with ⟨-,h | h⟩ | ⟨-,-,rest,rfl⟩
          · cases h
          · cases h
            cases hk
          · exact hne rest rfl
        · refine operator_longest hfam hname fun k' ds hs hf hp => ?_
          rcases hs.operator hf hp with ⟨rfl,-⟩ | ⟨-,-,rest,rfl⟩
          · exact Nat.le_refl _
          · exact absurd rfl (hne rest)
    · rename_i hext
      split
      · rename_i hw
        exact ⟨_,by simp,word_longest cs hw⟩
      · rename_i hw
        split
        · rename_i hn
          obtain ⟨hfam,hsp,rest,hrest⟩ := number_spells hn
          refine ⟨rest,hrest.symm,hsp,fun k' ds hs hp hf => number_longest (hf.trans hfam) hs
            (hrest ▸ hp),fun hi => ?_⟩
          rw [hi] at hfam
          cases hfam
        · rename_i hn
          refine ⟨cs,rfl,illegal_longest (by simpa using hw)
            (by simpa using hn) fun k ds hk hs hp => ?_⟩
          rcases hs.operator hk hp with ⟨-,h | h⟩ | ⟨-,h,-⟩ <;> simp [hsingle,hext] at h

/-! Places. -/

/-- Where the character after a text stands. -/
def place (before : List Char) : Position :=
  ⟨before.count '\n' + 1,(before.reverse.takeWhile (· ≠ '\n')).length + 1⟩

theorem after_eq (cs : List Char) :
    Position.start.after cs = ⟨cs.count '\n' + 1,(cs.reverse.takeWhile (· ≠ '\n')).length⟩ := by
  induction cs using reverseRecOn with
  | nil => rfl
  | append_singleton cs c ih =>
    rw [Position.after_append,ih]
    by_cases hc : c = '\n'
    · simp [Position.step,hc]
    · simp [Position.step,hc]

theorem place_eq (hc : c ≠ '\n') : (Position.start.after cs).step c = place cs := by
  rw [after_eq,Position.step,if_neg hc,place]

/-! Whole texts. -/

/-- After `before` the text goes on with gaps and, between them, the lexemes of the tokens. -/
inductive Divides : List Char → List Char → List Token → Prop where
  | finish {before g : List Char} : LastGap g → Divides before g []
  | token {before g cs rest : List Char} {k : Kind} {ts : List Token} : Filler g →
      ¬OpensGap (cs ++ rest) →
      k.Longest cs rest → Divides (before ++ g ++ cs) rest ts →
      Divides before (g ++ cs ++ rest) (⟨k,String.ofList cs,place (before ++ g)⟩ :: ts)

theorem scanFrom_divides (n : Nat) (before cs : List Char) (hn : cs.length ≤ n) :
    Divides before cs (scanFrom n (Position.start.after before) cs) := by
  induction n generalizing before cs with
  | zero =>
    obtain rfl := length_eq_zero_iff.mp (Nat.le_zero.mp hn)
    exact .finish (.inl .nil)
  | succ n ih =>
    have happ := splitGap_append .blank cs
    have hspec : Skips (splitGap .blank cs) := splitGap_spec .blank cs
    rw [scanFrom]
    split
    · rename_i g hg
      rw [hg] at happ hspec
      rcases hspec with ⟨-,hl⟩ | ⟨hr,-⟩
      · rw [← happ,append_nil]
        exact .finish hl
      · exact absurd rfl hr
    · rename_i g c rest hg
      rw [hg] at happ hspec
      obtain ⟨hr,-⟩ | ⟨-,hf,ho⟩ := hspec
      · cases hr
      · obtain ⟨after,hafter,hlong⟩ := lexemeAt_longest c rest
        have hc : c ≠ '\n' := fun hc => ho (.inl (by rw [hc]; rfl))
        have hdrop : (c::rest).drop (lexemeAt c rest).2.length = after := by rw [hafter,drop_left]
        rw [hafter] at happ ho
        simp only at happ ho ⊢
        rw [← Position.after_append,place_eq hc,← Position.after_append,hdrop,← happ,← append_assoc]
        refine .token hf ho hlong (ih _ _ ?_)
        have := length_pos_iff.mpr hlong.spells.ne_nil
        grind

/-- Every text is divided into gaps and the lexemes of its tokens, up to its first null character.
-/
theorem scan_divides (source : String) : ∃ ts finish,
    scan source = ts ++ [⟨.eof,"",finish⟩] ∧ Divides [] (visible source.toList) ts :=
  ⟨_,_,rfl,scanFrom_divides _ [] _ (Nat.le_refl _)⟩

end CMinusF.Token
