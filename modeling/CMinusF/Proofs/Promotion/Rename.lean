import CMinusF.Proofs.Promotion.Placement
import CMinusF.Proofs.Promotion.Plan

/-! Renaming: what one instruction, a block and a subtree of the dominator tree do to the draft. -/
namespace CMinusF
open CMinusF.Module List

namespace Draft

def plan (D : Draft) (promoted : InstrId → Bool)
    (start finish : BlockId → InstrId → Option Operand) : Plan :=
  ⟨promoted,fun l => (D.value l).getD (.instr l),D.newPhis,D.localOf,start,finish⟩

def base (D : Draft) (promoted : InstrId → Bool) : Plan :=
  D.plan promoted (fun _ _ => none) fun _ _ => none

structure Grows (D D' : Draft) : Prop where
  newPhis : D'.newPhis = D.newPhis
  localOf : D'.localOf = D.localOf
  gone : D'.gone = D.gone
  value : ∀ l v, D.value l = some v → D'.value l = some v

theorem Grows.refl (D : Draft) : Grows D D := ⟨rfl,rfl,rfl,fun _ _ h => h⟩

theorem Grows.trans {D D' D'' : Draft} (h : Grows D D') (h' : Grows D' D'') : Grows D D'' :=
  ⟨h'.newPhis.trans h.newPhis,h'.localOf.trans h.localOf,h'.gone.trans h.gone,
    fun l v hv => h'.value l v (h.value l v hv)⟩

end Draft

/-- Undefined literals stay undefined. -/
def Module.Extends (n n' : Module) : Prop :=
  ∀ c t, (n.literal c).value = .undef t → (n'.literal c).value = .undef t

theorem Module.Extends.refl (n : Module) : n.Extends n := fun _ _ h => h

theorem Module.Extends.trans {n n' n'' : Module} (h : n.Extends n') (h' : n'.Extends n'') :
    n.Extends n'' :=
  fun c t hc => h' c t (h c t hc)

theorem Feeds.mono {n n' : Module} {o : Option Operand} {v : Operand} (hf : Feeds n o v)
    (h : n.Extends n') :
    Feeds n' o v := by
  rcases hf with hf | ⟨ho,c,t,hv,hc⟩
  · exact .inl hf
  · exact .inr ⟨ho,c,t,hv,h c t hc⟩

theorem LoadsFed.mono {m n n' : Module} {P P' : Plan} {V : InstrId → Option Operand}
    {is : List InstrId} (h : LoadsFed m n P V is) (hp : P'.promoted = P.promoted)
    (hv : P'.value = P.value) (hn : n.Extends n') :
    LoadsFed m n' P' V is := by
  obtain ⟨p,v,_,_,_,_⟩ := P
  obtain ⟨p',v',_,_,_,_⟩ := P'
  subst hp hv
  induction is generalizing V with
  | nil => trivial
  | cons i is ih => exact ⟨fun a ha => (h.1 a ha).mono hn,ih h.2⟩

/-- The locals to promote: where they are, and that only loads and stores of them mention them. -/
structure Promotable (m : Module) (f : FuncId) (promoted : InstrId → Bool) : Prop where
  alloca : ∀ a, promoted a = true → (∃ b ∈ (m.func f).layout, a ∈ m.body b) ∧
    (m.instr a).op = .alloca
  scalar : ∀ a, promoted a = true → (Promotion.objectOf m a).isScalar = true
  linked : ∀ a, promoted a = true → ∀ u, .instr a ∈ m.operands u →
    ∃ b ∈ (m.func f).layout, u ∈ m.body b
  used : ∀ a, promoted a = true → ∀ u, .instr a ∈ m.operands u →
    (m.instr u).op = .load ∧ m.operand u 0 = .instr a ∨
      (m.instr u).op = .store ∧ m.operand u 1 = .instr a ∧ m.operand u 0 ≠ .instr a

/-- An operand that renaming leaves alone: a value of the function, a literal, or what else it
stores. -/
structure Resolved (m : Module) (f : FuncId) (names : Promotion.Names) (v : Operand) : Prop where
  source : (∃ x, v = .instr x) ∨ (∃ c, v = .literal c) ∨ ∃ i ∈ m.instrs f,
    ((Draft.initial.base names.tracked.get).storeOf? m i).isSome = true ∧ m.operand i 0 = v
  instr : ∀ x, v = .instr x → names.tracked.get x = false ∧
    (Draft.initial.base names.tracked.get).loadOf? m x = none ∧
    (x < m.instrTable.size → (m.instr x).type.isVoid = false ∧ ∃ b, (m.instr x).parent = some b ∧
      b.func = f) ∧
    (m.instrTable.size ≤ x → (names.localOf.get x).isSome = true)

theorem Resolved.literal {m : Module} {f : FuncId} {names : Promotion.Names} (c : LiteralId) :
    Resolved m f names (.literal c) :=
  ⟨.inr (.inl ⟨c,rfl⟩),fun x hx => by cases hx⟩

/-- The instructions in `done` have been renamed. -/
structure Renamed (m : Module) (f : FuncId) (names : Promotion.Names)
    (done : InstrId → Prop) (D : Draft) (r : Promotion.Renaming) : Prop where
  drafted : Drafted m r.module f D
  gone : ∀ i, D.gone i = false
  value : ∀ l, (D.value l).isSome = true ↔ ((D.base names.tracked.get).loadOf? m l).isSome =
    true ∧ done l
  resolved : ∀ l v, D.value l = some v → Resolved m f names v
  fed : ∀ p, ∀ x ∈ D.feeds p, Resolved m f names x.1
  dead : ∀ i, i ∈ r.dead ↔ done i ∧
    (((D.base names.tracked.get).loadOf? m i).isSome = true ∨
      ((D.base names.tracked.get).storeOf? m i).isSome = true)

namespace Renamed
variable {m : Module} {f : FuncId} {e b : BlockId} {names : Promotion.Names}
  {done : InstrId → Prop} {D : Draft} {r : Promotion.Renaming} {i l a : InstrId}

theorem value_of_not_load (h : Renamed m f names done D r)
    (hl : (D.base names.tracked.get).loadOf? m l = none) : D.value l = none := by
  by_contra hne
  have := ((h.value l).mp (Option.isSome_iff_ne_none.mpr hne)).1
  rw [hl] at this
  cases this

theorem subst_eq (h : Renamed m f names done D r) (v : Operand) :
    (D.base names.tracked.get).subst m v = D.operand v := by
  cases v with
  | instr l =>
    simp only [Plan.subst,Draft.operand]
    split
    · rfl
    · rename_i hl
      rw [h.value_of_not_load (by simpa using hl)]
      rfl
  | _ => rfl

theorem loadOf?_of_promoted {promoted : InstrId → Bool} (hP : Promotable m f promoted)
    (ha : promoted a = true) :
    (D.base promoted).loadOf? m a = none := by
  unfold Plan.loadOf?
  rw [(hP.alloca a ha).2]
  rfl

variable (h : Renamed m f names done D r)
include h

theorem target?_operand (hP : Promotable m f names.tracked.get)
    (v : Operand) : names.target? (D.operand v) = (D.base names.tracked.get).target? v := by
  cases v with
  | instr l =>
    cases hv : D.value l with
    | none =>
      simp only [Draft.operand,hv]
      rfl
    | some w =>
      have hl := ((h.value l).mp (by simp [hv])).1
      have hnp : names.tracked.get l = false := by
        cases hp : names.tracked.get l with
        | false => rfl
        | true =>
          rw [loadOf?_of_promoted hP hp] at hl
          cases hl
      have hr : (D.base names.tracked.get).target? (.instr l) = none :=
        if_neg (by simp [Draft.base,Draft.plan,hnp])
      rw [hr]
      simp only [Draft.operand,hv]
      cases w with
      | instr x => exact if_neg (by simp [((h.resolved l _ hv).instr x rfl).1])
      | _ => rfl
  | _ => rfl

theorem op_eq (hi : i < m.instrTable.size) :
    (r.module.instr i).op = (m.instr i).op := (h.drafted.fits.instr_op hi).1

theorem operand_eq (hi : i < m.instrTable.size) (k : Nat) :
    r.module.operand i k = D.operand (m.operand i k) := by
  have ho : r.module.operands i = (m.operands i).map D.operand :=
    congrArg Instr.operands (h.drafted.fits.kept i hi (h.gone i))
  rw [operand,ho,operand,getD_eq_getElem?_getD,getD_eq_getElem?_getD,getElem?_map]
  cases (m.operands i)[k]? <;> rfl

theorem addLiteral (c : Constant) :
    Renamed m f names done D ⟨(r.module.addLiteral c).1,r.dead⟩ :=
  ⟨h.drafted.addLiteral c,h.gone,h.value,h.resolved,h.fed,h.dead⟩

theorem replaceUses {v : Operand}
    (ha : (D.base names.tracked.get).loadOf? m i = some a) (hi : ¬done i)
    (hv : Resolved m f names v) :
    Renamed m f names (fun j => done j ∨ j = i) { D
      with value := Function.update D.value i (some v) }
      ⟨r.module.replaceUses (.instr i) v,r.dead ++ [i]⟩ := by
  have hload : ∀ w, Resolved m f names w → w ≠ .instr i := by
    rintro w hw rfl
    have := (hw.instr i rfl).2.1
    rw [show (Draft.initial.base names.tracked.get).loadOf? m i = some a from ha] at this
    cases this
  have hnone : D.value i = none := by
    by_contra hne
    exact hi ((h.value i).mp (Option.isSome_iff_ne_none.mpr hne)).2
  refine ⟨h.drafted.replaceUses hnone v (fun x hx => hload _ (h.resolved x _ hx) rfl)
    fun p x hx => hload _ (h.fed p x hx),h.gone,?_,?_,h.fed,?_⟩
  · intro l
    by_cases hl : l = i
    · subst hl
      simp only [Function.update_self,Option.isSome_some,or_true,and_true,true_iff]
      rw [show (Draft.base { D with value := Function.update D.value l (some v) }
        names.tracked.get).loadOf? m l = some a from ha]
      rfl
    · simp only [Function.update_of_ne hl,hl,or_false]
      exact h.value l
  · intro l w hw
    by_cases hl : l = i
    · simp_all
    · simp only [Function.update_of_ne hl] at hw
      exact h.resolved l w hw
  · intro j
    rw [mem_append,mem_singleton,h.dead]
    constructor
    · rintro (⟨hd,hj⟩ | rfl)
      · exact ⟨.inl hd,hj⟩
      · refine ⟨.inr rfl,.inl ?_⟩
        rw [show (Draft.base { D with value := Function.update D.value j (some v) }
          names.tracked.get).loadOf? m j = some a from ha]
        rfl
    · rintro ⟨hd | rfl,hj⟩
      · exact .inl ⟨hd,hj⟩
      · exact .inr rfl

theorem addDead (ha : (D.base names.tracked.get).storeOf? m i = some a) :
    Renamed m f names (fun j => done j ∨ j = i) D ⟨r.module,r.dead ++ [i]⟩ := by
  refine ⟨h.drafted,h.gone,fun l => ?_,h.resolved,h.fed,fun j => ?_⟩
  · rw [h.value]
    constructor
    · exact fun ⟨hl,hd⟩ => ⟨hl,.inl hd⟩
    · rintro ⟨hl,hd | rfl⟩
      · exact ⟨hl,hd⟩
      · obtain ⟨x,hx⟩ := Option.isSome_iff_exists.mp hl
        have h1 := ((Plan.loadOf?_eq_some ..).mp hx).1
        have h2 := ((Plan.storeOf?_eq_some ..).mp ha).1
        rw [h1] at h2
        cases h2
  · rw [mem_append,mem_singleton,h.dead]
    constructor
    · rintro (⟨hd,hj⟩ | rfl)
      · exact ⟨.inl hd,hj⟩
      · exact ⟨.inr rfl,.inr (by rw [ha]; rfl)⟩
    · rintro ⟨hd | rfl,hj⟩
      · exact .inl ⟨hd,hj⟩
      · exact .inr rfl

/-- Nothing happens at an instruction that neither loads nor stores a promoted local. -/
theorem pass (hl : (D.base names.tracked.get).loadOf? m i = none)
    (hs : (D.base names.tracked.get).storeOf? m i = none) :
    Renamed m f names (fun j => done j ∨ j = i) D r := by
  refine ⟨h.drafted,h.gone,fun l => ?_,h.resolved,h.fed,fun j => ?_⟩
  · rw [h.value]
    constructor
    · exact fun ⟨hl,hd⟩ => ⟨hl,Or.inl hd⟩
    · rintro ⟨hl',hd | rfl⟩
      · exact ⟨hl',hd⟩
      · rw [hl] at hl'
        cases hl'
  · rw [h.dead]
    constructor
    · exact fun ⟨hd,hj⟩ => ⟨Or.inl hd,hj⟩
    · rintro ⟨hd | rfl,hj⟩
      · exact ⟨hd,hj⟩
      · rw [hl,hs] at hj
        simp at hj

end Renamed

theorem Module.Extends.addLiteral (n : Module) (c : Constant) : n.Extends (n.addLiteral c).1 := by
  intro k t hk
  rw [literal,Module.addLiteral,Table.get_push]
  split
  · rename_i hs
    rw [hs,literal,Table.get_of_size_le _ (Nat.le_refl _)] at hk
    cases hk
  · exact hk

theorem Module.Extends.of_code {n n' : Module} (h : n'.code.literal = n.code.literal) :
    n.Extends n' := by
  intro c t hc
  exact (congrFun h c).trans hc

/-- What a local is worth, and that asking for it only makes a literal. -/
theorem Renamed.current {m : Module} {f : FuncId} {done : InstrId → Prop} {D : Draft}
    {r : Promotion.Renaming} (h : Renamed m f names done D r) (values : Promotion.Values)
    (a : InstrId) (hV : ∀ x v, values.get x = some v → Resolved m f names v) :
    Renamed m f names done D ⟨(Promotion.current r.module values a).1,r.dead⟩ ∧
    Feeds (Promotion.current r.module values a).1 (values.get a)
    (Promotion.current r.module values a).2 ∧
    Resolved m f names (Promotion.current r.module values a).2 ∧
    r.module.Extends (Promotion.current r.module values a).1 := by
  unfold Promotion.current
  cases hv : values.get a with
  | some v => exact ⟨h,.inl rfl,hV a v hv,.refl _⟩
  | none =>
    refine ⟨h.addLiteral _,.inr ⟨rfl,r.module.literalTable.size,Promotion.objectOf r.module a,rfl,
      ?_⟩,?_,.addLiteral _ _⟩
    · rw [literal,Module.addLiteral,Table.get_push,if_pos rfl]
    · exact .literal r.module.literalTable.size

/-! One instruction. -/

/-- What renaming an instruction or several does: a later draft, and the values after them. -/
structure Pass (m : Module) (f : FuncId) (names : Promotion.Names)
    (done : InstrId → Prop) (D : Draft) (r : Promotion.Renaming) (values : Promotion.Values)
    (is : List InstrId) (D' : Draft) (r' : Promotion.Renaming)
    (values' : Promotion.Values) : Prop where
  grows : D.Grows D'
  feeds : D'.feeds = D.feeds
  renamed : Renamed m f names (fun j => done j ∨ j ∈ is) D' r'
  resolved : ∀ x v, values'.get x = some v → Resolved m f names v
  after : values'.get = (D'.base names.tracked.get).through m values.get is
  fed : LoadsFed m r'.module (D'.base names.tracked.get) values.get is
  extends_ : r.module.Extends r'.module

/-- The value that a store stores has been renamed before. -/
def Settled (m : Module) (promoted : InstrId → Bool) (done : InstrId → Prop) (i : InstrId) : Prop :=
  ∀ a l, (Draft.initial.base promoted).storeOf? m i = some a → m.operand i 0 = .instr l →
    ((Draft.initial.base promoted).loadOf? m l).isSome = true → done l

/-- The operands of an instruction are values of the function. -/
def Valued (m : Module) (f : FuncId) (i : InstrId) : Prop :=
  i ∈ m.instrs f ∧ ∀ j, .instr j ∈ m.operands i → (m.instr j).type.isVoid = false ∧
    ∃ b, (m.instr j).parent = some b ∧ b.func = f

section
variable {m : Module} {f : FuncId} {e b : BlockId} {names : Promotion.Names}
  {done : InstrId → Prop} {D : Draft} {r : Promotion.Renaming} {values : Promotion.Values}
    {i : InstrId}

theorem Renamed.resolved_operand {a : InstrId} (h : Renamed m f names done D r)
    (hP : Promotable m f names.tracked.get) (hset : Settled m names.tracked.get done i)
    (hval : Valued m f i) (ha : (D.base names.tracked.get).storeOf? m i = some a) :
    Resolved m f names (D.operand (m.operand i 0)) := by
  obtain ⟨hop,_,_⟩ := (Plan.storeOf?_eq_some ..).mp ha
  cases hv : m.operand i 0 with
  | instr l =>
    cases hd : D.value l with
    | some w =>
      simp only [Draft.operand,hd]
      exact h.resolved l w hd
    | none =>
      simp only [Draft.operand,hd]
      refine ⟨.inl ⟨l,rfl⟩,fun x hx => ?_⟩
      obtain rfl := Operand.instr.inj hx
      have hmem := mem_operands_of_operand hv (by simp)
      obtain ⟨hval,c,hc,hcf⟩ := hval.2 l hmem
      have hlt : l < m.instrTable.size := lt_size_of_ne fun hd => by
        rw [hd] at hc
        cases hc
      refine ⟨?_,?_,fun _ => ⟨hval,c,hc,hcf⟩,fun hle => absurd hlt (Nat.not_lt.mpr hle)⟩
      · by_contra hp
        rcases hP.used l (by simpa using hp) i hmem with ⟨hop',_⟩ | ⟨_,_,hne⟩
        · rw [hop] at hop'
          cases hop'
        · exact hne hv
      · by_contra hl
        have hdone := hset a l ha hv (Option.isSome_iff_ne_none.mpr hl)
        have := (h.value l).mpr ⟨Option.isSome_iff_ne_none.mpr hl,hdone⟩
        rw [hd] at this
        cases this
  | _ =>
    refine ⟨.inr (.inr ⟨i,hval.1,?_,hv⟩),fun x hx => ?_⟩
    · rw [show (Draft.initial.base names.tracked.get).storeOf? m i = some a from ha]
      rfl
    · simp [Draft.operand] at hx

theorem Renamed.loadOf?_eq (h : Renamed m f names done D r) (hP : Promotable m f names.tracked.get)
    (hi : i < m.instrTable.size) : (D.base names.tracked.get).loadOf? m i =
      if (r.module.instr i).op = .load then names.target? (r.module.operand i 0) else none := by
  rw [Plan.loadOf?,h.op_eq hi,h.operand_eq hi,h.target?_operand hP]

theorem Renamed.storeOf?_eq (h : Renamed m f names done D r) (hP : Promotable m f names.tracked.get)
    (hi : i < m.instrTable.size) : (D.base names.tracked.get).storeOf? m i =
      if (r.module.instr i).op = .store then names.target? (r.module.operand i 1) else none := by
  rw [Plan.storeOf?,h.op_eq hi,h.operand_eq hi,h.target?_operand hP]

theorem Renamed.grows_update (h : Renamed m f names done D r) (hdone : ¬done i) (v : Operand) :
    D.Grows { D with value := Function.update D.value i (some v) } := by
  refine ⟨rfl,rfl,rfl,fun l v hl => ?_⟩
  have hne : l ≠ i := by
    rintro rfl
    exact hdone ((h.value l).mp (by simp [hl])).2
  exact (Function.update_of_ne hne _ _).trans hl

theorem Renamed.renameInstr (h : Renamed m f names done D r) (hP : Promotable m f names.tracked.get)
    (hi : i < m.instrTable.size) (hphi : (m.instr i).op ≠ .phi) (hdone : ¬done i)
    (hV : ∀ x v, values.get x = some v → Resolved m f names v)
      (hset : Settled m names.tracked.get done i)
    (hval : Valued m f i) :
    ∃ D', Pass m f names done D r values [i] D' (Promotion.renameInstr names (r,values) i).1
      (Promotion.renameInstr names (r,values) i).2 := by
  have hd : (fun j => done j ∨ j ∈ [i]) = fun j => done j ∨ j = i := by simp
  have hpass : (D.base names.tracked.get).loadOf? m i = none →
    (D.base names.tracked.get).storeOf? m i = none →
      ∃ D', Pass m f names done D r values [i] D' r values := by
    intro hl hs
    refine ⟨D,.refl D,rfl,hd ▸ h.pass hl hs,hV,?_,?_,.refl _⟩
    · exact (Plan.after_of_storeOf?_none _ m hs _).symm
    · refine ⟨fun a ha => ?_,trivial⟩
      rw [hl] at ha
      cases ha
  have hload := h.loadOf?_eq hP hi
  have hstore := h.storeOf?_eq hP hi
  unfold Promotion.renameInstr
  simp only
  split
  · rename_i hop
    rw [h.op_eq hi] at hop
    exact absurd hop hphi
  · rename_i hop
    rw [hop] at hload hstore
    simp only [↓reduceIte] at hload hstore
    split
    · rename_i a ha
      rw [ha] at hstore
      refine ⟨D,.refl D,rfl,hd ▸ h.addDead hstore,?_,?_,?_,.refl _⟩
      · intro x v hx
        rw [Table.get_set] at hx
        split at hx
        · rw [Option.some.injEq] at hx
          rw [← hx,h.operand_eq hi]
          exact h.resolved_operand hP hset hval hstore
        · exact hV x v hx
      · funext x
        simp only [Plan.through,foldl_cons,foldl_nil,Plan.after,hstore,Option.some.injEq]
        rw [Table.get_set,h.operand_eq hi,h.subst_eq]
      · refine ⟨fun a ha => ?_,trivial⟩
        rw [hload] at ha
        cases ha
    · rename_i hn
      rw [hn] at hstore
      exact hpass hload hstore
  · rename_i hop
    rw [hop] at hload hstore
    simp only [↓reduceIte] at hload hstore
    split
    · rename_i a ha
      rw [ha] at hload
      obtain ⟨h1,h2,h3,h4⟩ := h.current values a hV
      generalize Promotion.current r.module values a = c at h1 h2 h3 h4
      have hr := h1.replaceUses hload hdone h3
      have hlit := congrArg Code.literal
        (code_replaceUses h1.drafted.mirror (.instr i) (by simp) c.2).1
      have hext : c.1.Extends (c.1.replaceUses (.instr i) c.2) := .of_code hlit
      refine ⟨{ D with value := Function.update D.value i (some c.2) },h.grows_update hdone c.2,rfl,
        hd ▸ hr,hV,?_,?_,h4.trans hext⟩
      · exact (Plan.after_of_storeOf?_none
          (Draft.base { D with value := Function.update D.value i (some c.2) } names.tracked.get) m
            hstore _).symm
      · refine ⟨fun a' ha' => ?_,trivial⟩
        obtain rfl := Option.some.inj (hload.symm.trans ha')
        have hval : (Draft.base { D with value := Function.update D.value i (some c.2) }
            names.tracked.get).value i = c.2 := by
          simp [Draft.base,Draft.plan]
        rw [hval]
        exact h2.mono hext
    · rename_i hn
      rw [hn] at hload
      exact hpass hload hstore
  · rename_i h1 h2 h3
    rw [if_neg h3] at hload
    rw [if_neg h2] at hstore
    exact hpass hload hstore

end

/-! What has been said of renamed instructions stays true. -/
namespace Draft.Grows
variable {m : Module} {promoted : InstrId → Bool} {D D' : Draft} {i : InstrId}

theorem value_eq (h : D.Grows D') (hi : (D.value i).isSome = true) :
    (D'.base promoted).value i = (D.base promoted).value i := by
  obtain ⟨v,hv⟩ := Option.isSome_iff_exists.mp hi
  simp only [Draft.base,Draft.plan,hv,h.value i v hv]

theorem after_eq (h : D.Grows D') (hi : Settled m promoted (fun l => (D.value l).isSome = true) i)
    (V : InstrId → Option Operand) :
    (D'.base promoted).after m V i = (D.base promoted).after m V i := by
  funext x
  simp only [Plan.after]
  by_cases hs : (D.base promoted).storeOf? m i = some x
  · rw [if_pos hs,if_pos (show (D'.base promoted).storeOf? m i = some x from hs)]
    congr 1
    cases hv : m.operand i 0 with
    | instr l =>
      simp only [Plan.subst]
      by_cases hl : ((D.base promoted).loadOf? m l).isSome = true
      · rw [if_pos hl,if_pos (show ((D'.base promoted).loadOf? m l).isSome = true from hl)]
        exact h.value_eq (hi x l hs hv hl)
      · rw [if_neg hl,if_neg (show ¬((D'.base promoted).loadOf? m l).isSome = true from hl)]
    | _ => rfl
  · rw [if_neg hs,if_neg (show ¬(D'.base promoted).storeOf? m i = some x from hs)]

theorem through_eq (h : D.Grows D') (is : List InstrId)
    (his : ∀ i ∈ is, Settled m promoted (fun l => (D.value l).isSome = true) i)
    (V : InstrId → Option Operand) :
    (D'.base promoted).through m V is = (D.base promoted).through m V is := by
  induction is generalizing V with
  | nil => rfl
  | cons i is ih =>
    simp only [Plan.through,foldl_cons] at ih ⊢
    rw [h.after_eq (his i mem_cons_self),ih fun j hj => his j (mem_cons_of_mem _ hj)]

theorem loadsFed {n n' : Module} (h : D.Grows D') (hn : n.Extends n') (is : List InstrId)
    (his : ∀ i ∈ is, Settled m promoted (fun l => (D.value l).isSome = true) i)
    (hl : ∀ i ∈ is, ((D.base promoted).loadOf? m i).isSome = true → (D.value i).isSome = true)
    (V : InstrId → Option Operand) (hf : LoadsFed m n (D.base promoted) V is) :
    LoadsFed m n' (D'.base promoted) V is := by
  induction is generalizing V with
  | nil => trivial
  | cons i is ih =>
    refine ⟨fun a ha => ?_,?_⟩
    · rw [h.value_eq (hl i mem_cons_self (by
        rw [show (D.base promoted).loadOf? m i = some a from ha]
        rfl))]
      exact (hf.1 a ha).mono hn
    · rw [h.after_eq (his i mem_cons_self)]
      exact ih (fun j hj => his j (mem_cons_of_mem _ hj))
        (fun j hj => hl j (mem_cons_of_mem _ hj)) _ hf.2

end Draft.Grows

section
variable {m : Module} {f : FuncId} {e b : BlockId} {names : Promotion.Names}
  {done : InstrId → Prop} {D : Draft} {r : Promotion.Renaming} {values : Promotion.Values}

theorem Renamed.settled (h : Renamed m f names done D r) {i : InstrId}
    (hi : Settled m names.tracked.get done i) :
    Settled m names.tracked.get (fun l => (D.value l).isSome = true) i :=
  fun a l ha hl hld => (h.value l).mpr ⟨hld,hi a l ha hl hld⟩

theorem Renamed.foldl_renameInstr (values : Promotion.Values)
    (hP : Promotable m f names.tracked.get) (is : List InstrId) (h : Renamed m f names done D r)
    (hsz : ∀ i ∈ is, i < m.instrTable.size) (hphi : ∀ i ∈ is, (m.instr i).op ≠ .phi)
    (hnd : is.Nodup) (hdone : ∀ i ∈ is, ¬done i)
    (hV : ∀ x v, values.get x = some v → Resolved m f names v)
    (hset : ∀ pre i post, is = pre ++ i :: post →
      Settled m names.tracked.get (fun l => done l ∨ l ∈ pre) i)
    (hval : ∀ i ∈ is, Valued m f i) :
    ∃ D', Pass m f names done D r values is D' (is.foldl (Promotion.renameInstr names) (r,values)).1
      (is.foldl (Promotion.renameInstr names) (r,values)).2 := by
  induction is generalizing done D r values with
  | nil => exact ⟨D,.refl D,rfl,by simpa using h,hV,rfl,trivial,.refl _⟩
  | cons i is ih =>
    have hset1 : Settled m names.tracked.get done i := by
      have := hset [] i is rfl
      simpa using this
    obtain ⟨D1,p1⟩ := h.renameInstr hP (hsz i mem_cons_self) (hphi i mem_cons_self)
      (hdone i mem_cons_self) hV hset1 (hval i mem_cons_self)
    rw [foldl_cons]
    generalize Promotion.renameInstr names (r,values) i = s at p1
    obtain ⟨r1,values1⟩ := s
    have hd : (fun j => (done j ∨ j ∈ [i]) ∨ j ∈ is) = fun j => done j ∨ j ∈ i :: is := by
      funext j
      simp only [mem_cons,not_mem_nil,or_false,or_assoc]
    obtain ⟨D2,p2⟩ := ih values1 p1.renamed (fun j hj => hsz j (mem_cons_of_mem _ hj))
      (fun j hj => hphi j (mem_cons_of_mem _ hj)) (nodup_cons.mp hnd).2 (by
        rintro j hj (hd | hd)
        · exact hdone j (mem_cons_of_mem _ hj) hd
        · exact (nodup_cons.mp hnd).1 (mem_singleton.mp hd ▸ hj)) p1.resolved (by
        intro pre j post hs a l ha hl hld
        have := hset (i :: pre) j post (by rw [hs]; rfl) a l ha hl hld
        simpa only [mem_cons,or_assoc,not_mem_nil,or_false] using this)
      (fun j hj => hval j (mem_cons_of_mem _ hj))
    have hi := p1.renamed.settled (fun a l ha hl hld => .inl (hset1 a l ha hl hld))
    refine ⟨D2,p1.grows.trans p2.grows,p2.feeds.trans p1.feeds,hd ▸ p2.renamed,p2.resolved,?_,?_,
      p1.extends_.trans p2.extends_⟩
    · rw [p2.after,p1.after]
      show _ = (D2.base names.tracked.get).through m _ is
      rw [p2.grows.after_eq hi]
      rfl
    · have hf := p1.fed
      have ha : values1.get = (D1.base names.tracked.get).after m values.get i := p1.after
      refine ⟨fun a ha => ?_,?_⟩
      · rw [p2.grows.value_eq ((p1.renamed.value i).mpr ⟨by
          rw [show (D1.base names.tracked.get).loadOf? m i = some a from ha]
          rfl,.inr (by simp)⟩)]
        exact (hf.1 a ha).mono p2.extends_
      · rw [p2.grows.after_eq hi,← ha]
        exact p2.fed

end
end CMinusF
