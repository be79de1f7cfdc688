import CMinusF.Transform.Promotion
import CMinusF.Proofs.Graph.Formed
import CMinusF.Proofs.Graph.Mirror
import Mathlib.Logic.Function.Basic

/-! A function while its locals are being promoted: what the code looks like in terms of the phis
made, the values known to stand for loads, what has been fed to the phis and what has been taken
away. Every edit of the pass changes one of the four. -/
namespace CMinusF
open CMinusF.Module List
variable {m : Module} {i p l : InstrId} {b : BlockId}

structure Draft where
  newPhis : BlockId → List InstrId
  /-- The local that a new phi stands for. -/
  localOf : InstrId → InstrId
  value : InstrId → Option Operand
  feeds : InstrId → List (Operand × BlockId)
  gone : InstrId → Bool

namespace Draft

def operand (D : Draft) : Operand → Operand
  | .instr l => (D.value l).getD (.instr l)
  | v => v

def line (D : Draft) (m : Module) (b : BlockId) : List InstrId :=
  m.phis b ++ D.newPhis b ++ m.body b

def initial : Draft := ⟨fun _ => [],fun _ => 0,fun _ => none,fun _ => [],fun _ => false⟩

/-- The code of `m` with the function `f` as the draft has it. -/
structure Fits (m : Module) (f : FuncId) (D : Draft) (c : Code) : Prop where
  funcs : c.funcs = m.funcs
  globals : c.globals = m.globals
  global : c.global = m.code.global
  func : ∀ g, { c.func g with numbered := 0 } = { m.code.func g with numbered := 0 }
  block : ∀ b ∈ (m.func f).layout,
    c.block b = { m.code.block b with instrs := (D.line m b).filter fun i => !D.gone i }
  elsewhere : ∀ b ∉ (m.func f).layout, c.block b = m.code.block b
  literal : ∀ k < m.literalTable.size, c.literal k = m.code.literal k
  kept : ∀ i < m.instrTable.size, D.gone i = false →
    c.instr i = { m.code.instr i with operands := (m.operands i).map D.operand }
  gone : ∀ i, D.gone i = true → i < m.instrTable.size ∧
    c.instr i = { m.code.instr i with operands := [], parent := none }
  newPhi : ∀ b, ∀ p ∈ D.newPhis b, m.instrTable.size ≤ p ∧ (c.instr p).op = .phi ∧
    (c.instr p).parent = some b ∧
    (c.instr p).type = Promotion.objectOf m (D.localOf p) ∧
    (c.instr p).operands = arms (D.feeds p)
  beyond : ∀ i, m.instrTable.size ≤ i → (∀ b, i ∉ D.newPhis b) → (c.instr i).operands = []

end Draft

structure Drafted (m n : Module) (f : FuncId) (D : Draft) : Prop where
  mirror : n.Mirror
  literals : m.literalTable.size ≤ n.literalTable.size
  fits : D.Fits m f n.code

theorem Module.instr_of_size_le (h : m.instrTable.size ≤ i) : m.instr i = default := by
  by_contra hne
  exact absurd (lt_size_of_ne hne) (Nat.not_lt.mpr h)

/-! Literals are never taken away. -/
namespace Module
variable (m : Module)

theorem size_literalTable_modifyUses (v : Operand) (h : List InstrId → List InstrId) :
    m.literalTable.size ≤ (m.modifyUses v h).literalTable.size := by
  cases v with
  | literal c =>
    simp only [modifyUses,modifyLiteral,Table.size_modify]
    exact Nat.le_max_left _ _
  | global => exact Nat.le_refl _
  | arg => exact Nat.le_refl _
  | instr => exact Nat.le_refl _
  | block => exact Nat.le_refl _
  | func => exact Nat.le_refl _
  | hole => exact Nat.le_refl _

theorem size_literalTable_setOperand (i : InstrId) (k : Nat) (v : Operand) :
    m.literalTable.size ≤ (m.setOperand i k v).literalTable.size := by
  have h := size_literalTable_modifyUses m (m.operand i k) (·.erase i)
  unfold setOperand
  generalize hm' : m.removeUse (m.operand i k) i = m'
  rw [← removeUse,hm'] at h
  exact h.trans (size_literalTable_modifyUses (m'.modifyInstr i _) v _)

theorem size_literalTable_foldl {α : Type} (g : Module → α → Module)
    (hg : ∀ m x, m.literalTable.size ≤ (g m x).literalTable.size) (xs : List α) :
    m.literalTable.size ≤ (xs.foldl g m).literalTable.size := by
  induction xs generalizing m with
  | nil => exact Nat.le_refl _
  | cons x xs ih => exact Nat.le_trans (hg m x) (ih _)

theorem size_literalTable_replaceUses (old new : Operand) :
    m.literalTable.size ≤ (m.replaceUses old new).literalTable.size := by
  refine size_literalTable_foldl m _ (fun m u => ?_) _
  refine size_literalTable_foldl m _ (fun m k => ?_) _
  split
  · exact size_literalTable_setOperand ..
  · exact Nat.le_refl _

theorem size_literalTable_addIncoming (p : InstrId) (v : Operand) (b : BlockId) :
    m.literalTable.size ≤ (m.addIncoming p v b).literalTable.size := by
  have h := size_literalTable_modifyUses
    (m.modifyInstr p fun x => { x with operands := x.operands ++ [v,.block b] }) v
    (· ++ [p])
  exact h.trans (size_literalTable_modifyUses _ _ _)

theorem size_literalTable_erase (hop : (m.instr i).op ≠ .br) :
    m.literalTable.size ≤ (m.erase i).literalTable.size := by
  have hd : m.literalTable.size ≤ (m.dropOperands i).literalTable.size :=
    size_literalTable_foldl m (fun m v => m.removeUse v i)
      (fun m v => size_literalTable_modifyUses m v _) (m.operands i)
  rw [erase_eq m hop]
  generalize m.dropOperands i = m' at hd ⊢
  cases (m.instr i).parent with
  | none => exact hd
  | some b =>
    simp only [remove]
    split <;> exact hd

end Module

namespace Draft.Fits
variable {f : FuncId} {D : Draft} {c : Code}

variable (h : D.Fits m f c)
include h

theorem setLiteral {k : LiteralId} (hk : m.literalTable.size ≤ k) (v : Constant) :
    D.Fits m f (c.setLiteral k v) :=
  { h with
    literal := fun k' hk' => (if_neg (Nat.ne_of_lt (hk'.trans_le hk))).trans (h.literal k' hk') }

theorem mapOperands (hl : D.value l = none) (v : Operand)
    (hv : ∀ x, D.value x ≠ some (.instr l)) (hf : ∀ p, ∀ x ∈ D.feeds p, x.1 ≠ .instr l) :
    Fits m f { D with value := Function.update D.value l (some v) }
    (c.mapOperands (Operand.replace (.instr l) v)) := by
  have hop : ∀ w, Operand.replace (.instr l) v (D.operand w) =
      Draft.operand { D with value := Function.update D.value l (some v) } w := by
    intro w
    unfold Operand.replace
    cases w with
    | instr x =>
      simp only [Draft.operand]
      by_cases hx : x = l
      · subst hx
        simp [hl]
      · rw [Function.update_of_ne hx]
        refine if_neg fun he => ?_
        cases hd : D.value x with
        | none =>
          rw [hd] at he
          exact hx (Operand.instr.inj he)
        | some w =>
          rw [hd] at he
          exact hv x (hd.trans (congrArg some he))
    | _ => simp [Draft.operand]
  refine { h with kept := ?_, gone := ?_, newPhi := ?_, beyond := ?_ }
  · intro i hi hg
    simp only [Code.mapOperands]
    rw [h.kept i hi hg]
    simp only [map_map]
    congr 2
    funext w
    exact hop w
  · intro i hg
    obtain ⟨hi,hr⟩ := h.gone i hg
    refine ⟨hi,?_⟩
    simp only [Code.mapOperands]
    rw [hr]
    rfl
  · intro b p hp
    obtain ⟨h1,h2,h3,h4,h5⟩ := h.newPhi b p hp
    refine ⟨h1,h2,h3,h4,?_⟩
    simp only [Code.mapOperands]
    rw [h5,map_flatMap]
    refine flatMap_congr fun x hx => ?_
    simp only [map_cons,map_nil]
    rw [Operand.replace_of_ne (hf p x hx),Operand.replace_of_ne (by simp)]
  · intro i hi hp
    simp only [Code.mapOperands]
    rw [h.beyond i hi hp]
    rfl

theorem addIncoming (hp : p ∈ D.newPhis b) (v : Operand) (q : BlockId) :
    Fits m f { D with feeds := Function.update D.feeds p (D.feeds p ++ [(v,q)]) }
      (c.setOperands p ((c.instr p).operands ++ [v,.block q])) := by
  have hsz := (h.newPhi b p hp).1
  have hne : ∀ i, i < m.instrTable.size → ∀ l, (c.setOperands p l).instr i = c.instr i := by
    intro i hi l
    exact if_neg (Nat.ne_of_gt (hi.trans_le hsz))
  refine { h with kept := ?_, gone := ?_, newPhi := ?_, beyond := ?_ }
  · intro i hi hg
    rw [hne i hi]
    exact h.kept i hi hg
  · intro i hg
    obtain ⟨hi,hr⟩ := h.gone i hg
    exact ⟨hi,(hne i hi _).trans hr⟩
  · intro b' p' hp'
    obtain ⟨h1,h2,h3,h4,h5⟩ := h.newPhi b' p' hp'
    by_cases hpp : p = p'
    · subst hpp
      refine ⟨h1,?_,?_,?_,?_⟩ <;> simp only [Code.setOperands,Code.modifyInstr]
      · exact h2
      · exact h3
      · exact h4
      · simp [h5]
    · have hi : ∀ l, (c.setOperands p l).instr p' = c.instr p' := fun l => if_neg hpp
      rw [hi]
      refine ⟨h1,h2,h3,h4,?_⟩
      simp only
      rw [h5,Function.update_of_ne (Ne.symm hpp)]
  · intro i hi hn
    have hpi : p ≠ i := fun hpi => hn b (hpi ▸ hp)
    exact (congrArg Instr.operands (if_neg hpi)).trans (h.beyond i hi hn)

theorem instr_op (hi : i < m.instrTable.size) :
    (c.instr i).op = (m.instr i).op ∧ (c.instr i).type = (m.instr i).type ∧
    (c.instr i).object = (m.instr i).object := by
  cases hg : D.gone i with
  | false =>
    rw [h.kept i hi hg]
    exact ⟨rfl,rfl,rfl⟩
  | true =>
    rw [(h.gone i hg).2]
    exact ⟨rfl,rfl,rfl⟩

theorem erase (hb : b ∈ (m.func f).layout) (hi : i < m.instrTable.size)
    (hg : D.gone i = false) (hnd : (D.line m b).Nodup)
    (hother : ∀ b' ∈ (m.func f).layout, b' ≠ b → i ∉ D.line m b') :
    Fits m f { D with gone := Function.update D.gone i true }
      (((c.setOperands i []).modifyBlock b fun x =>
        { x with instrs := x.instrs.erase i }).modifyInstr i
        fun x => { x with parent := none }) := by
  have hsame : ∀ j, i ≠ j →
    ((((c.setOperands i []).modifyBlock b fun x =>
    { x with instrs := x.instrs.erase i })).modifyInstr i
      fun x => { x with parent := none }).instr j = c.instr j :=
        fun j hj => (if_neg hj).trans (if_neg hj)
  have hfil : ∀ l : List InstrId, l.filter (fun j => !Function.update D.gone i true j) =
      (l.filter fun j => !D.gone j).filter (· != i) := by
    intro l
    rw [filter_filter]
    refine filter_congr fun j _ => ?_
    by_cases hj : j = i
    · subst hj
      simp
    · simp [hj]
  refine { h with block := ?_, elsewhere := ?_, kept := ?_, gone := ?_, newPhi := ?_, beyond := ?_ }
  · intro b' hb'
    rw [show Draft.line { D with gone := Function.update D.gone i true } m b' = D.line m b'
      from rfl,hfil]
    by_cases hbb : b = b'
    · subst hbb
      simp only [Code.modifyInstr,Code.modifyBlock,Code.setOperands,↓reduceIte]
      rw [h.block b hb]
      simp only
      rw [(hnd.filter _).erase_eq_filter]
    · refine (if_neg hbb).trans ((h.block b' hb').trans ?_)
      have hni : ∀ j ∈ (D.line m b').filter (fun j => !D.gone j), (j != i) = true := by grind
      rw [filter_eq_self.mpr hni]
  · intro b' hb'
    have hbb : b ≠ b' := fun he => hb' (he ▸ hb)
    exact (if_neg hbb).trans (h.elsewhere b' hb')
  · intro j hj hgj
    have hij : i ≠ j := by
      rintro rfl
      simp at hgj
    rw [hsame j hij]
    simp only at hgj
    rw [Function.update_of_ne (Ne.symm hij)] at hgj
    exact h.kept j hj hgj
  · intro j hgj
    by_cases hij : i = j
    · subst hij
      refine ⟨hi,?_⟩
      simp only [Code.modifyInstr,Code.modifyBlock,Code.setOperands,↓reduceIte]
      rw [h.kept i hi hg]
    · simp only at hgj
      rw [Function.update_of_ne (Ne.symm hij)] at hgj
      rw [hsame j hij]
      exact h.gone j hgj
  · intro b' p hp
    have hip : i ≠ p := Nat.ne_of_lt (hi.trans_le (h.newPhi b' p hp).1)
    rw [hsame p hip]
    exact h.newPhi b' p hp
  · intro j hj hn
    rw [hsame j (Nat.ne_of_lt (hi.trans_le hj))]
    exact h.beyond j hj hn

theorem newPhi_step {a : InstrId} {t : Ty} {number : Option Nat}
    {k : Nat} (hk : k = (m.phis b ++ D.newPhis b).length) (hb : b ∈ (m.func f).layout)
    (hp : m.instrTable.size ≤ p) (hnew : ∀ b', p ∉ D.newPhis b') (hgone : ∀ i, D.gone i = false)
      (hfeeds : D.feeds p = []) (ht : t = Promotion.objectOf m a) :
    Fits m f { D with
        newPhis := Function.update D.newPhis b (D.newPhis b ++ [p])
        localOf := Function.update D.localOf p a }
      (((c.setInstr p ⟨.phi,t,number,none,[],none,[]⟩).modifyInstr p fun x =>
        { x with parent := some b }).modifyBlock b
        fun x => { x with instrs := x.instrs.take k ++ p :: x.instrs.drop k }) := by
  have hsame : ∀ j, p ≠ j → (((c.setInstr p ⟨.phi,t,number,none,[],none,[]⟩).modifyInstr p
      fun x => { x with parent := some b })).instr j = c.instr j :=
    fun j hj => (if_neg hj).trans (if_neg (Ne.symm hj))
  have hfil : ∀ l : List InstrId, (l.filter fun i => !D.gone i) = l := by
    intro l
    exact filter_eq_self.mpr fun i _ => by simp [hgone]
  refine { h with block := ?_, elsewhere := ?_, kept := ?_, gone := ?_, newPhi := ?_, beyond := ?_ }
  · intro b' hb'
    have hbl := h.block b' hb'
    simp only
    rw [hfil] at hbl ⊢
    by_cases hbb : b = b'
    · subst hbb
      simp only [Code.modifyInstr,Code.modifyBlock,Code.setInstr]
      rw [hbl]
      simp only [Draft.line]
      rw [hk,take_left,drop_left]
      simp
    · refine (if_neg hbb).trans (hbl.trans ?_)
      simp only [Draft.line,Function.update_of_ne (Ne.symm hbb)]
  · intro b' hb'
    have hbb : b ≠ b' := fun he => hb' (he ▸ hb)
    exact (if_neg hbb).trans (h.elsewhere b' hb')
  · intro j hj hgj
    exact (hsame j (Nat.ne_of_gt (hj.trans_le hp))).trans (h.kept j hj hgj)
  · intro j hgj
    exact absurd (show D.gone j = true from hgj) (by simp [hgone])
  · intro b' q hq
    by_cases hpq : p = q
    · subst hpq
      have hbb : b' = b := by
        by_contra hne
        simp only [Function.update_of_ne hne] at hq
        exact hnew b' hq
      subst hbb
      simp only [Code.modifyInstr,Code.modifyBlock,Code.setInstr,↓reduceIte,
        Function.update_self,hfeeds]
      exact ⟨hp,trivial,trivial,ht,rfl⟩
    · have hq' : q ∈ D.newPhis b' := by
        by_cases hbb : b' = b
        · subst hbb
          simp only [Function.update_self,mem_append,mem_singleton] at hq
          exact hq.resolve_right (Ne.symm hpq)
        · simpa only [Function.update_of_ne hbb] using hq
      have hi := hsame q hpq
      obtain ⟨h1,h2,h3,h4,h5⟩ := h.newPhi b' q hq'
      simp only [Function.update_of_ne (Ne.symm hpq)]
      exact ⟨h1,(congrArg Instr.op hi).trans h2,(congrArg Instr.parent hi).trans h3,
        (congrArg Instr.type hi).trans h4,
        (congrArg Instr.operands hi).trans h5⟩
  · intro j hj hn
    have hpj : p ≠ j := by
      rintro rfl
      exact hn b (by simp)
    refine (congrArg Instr.operands (hsame j hpj)).trans (h.beyond j hj fun b' hjb => hn b' ?_)
    by_cases hbb : b' = b
    · subst hbb
      simp [hjb]
    · simpa only [Function.update_of_ne hbb] using hjb

end Draft.Fits

namespace Drafted
variable {n : Module} {f : FuncId} {D : Draft}

theorem addLiteral (h : Drafted m n f D) (v : Constant) : Drafted m (n.addLiteral v).1 f D where
  mirror := h.mirror.addLiteral v
  literals := by
    have := h.literals
    simp only [Module.addLiteral,Table.size_push]
    omega
  fits := by
    rw [code_addLiteral]
    exact h.fits.setLiteral h.literals v

theorem replaceUses (h : Drafted m n f D) (hl : D.value l = none) (v : Operand)
    (hv : ∀ x, D.value x ≠ some (.instr l)) (hf : ∀ p, ∀ x ∈ D.feeds p, x.1 ≠ .instr l) :
    Drafted m (n.replaceUses (.instr l) v) f { D
      with value := Function.update D.value l (some v) } := by
  obtain ⟨hc,hm⟩ := code_replaceUses h.mirror (.instr l) (by simp) v
  refine ⟨hm,Nat.le_trans h.literals (size_literalTable_replaceUses ..),?_⟩
  rw [hc]
  exact h.fits.mapOperands hl v hv hf

theorem addIncoming (h : Drafted m n f D) (hp : p ∈ D.newPhis b) (v : Operand) (q : BlockId) :
    Drafted m (n.addIncoming p v q) f { D
      with feeds := Function.update D.feeds p (D.feeds p ++ [(v,q)]) } := by
  refine ⟨h.mirror.addIncoming p v q,Nat.le_trans h.literals (size_literalTable_addIncoming ..),?_⟩
  rw [code_addIncoming]
  exact h.fits.addIncoming hp v q

theorem erase (h : Drafted m n f D) (hb : b ∈ (m.func f).layout) (hib : i ∈ m.body b)
    (hi : i < m.instrTable.size) (hpar : (m.instr i).parent = some b) (hop : (m.instr i).op ≠ .br)
    (hnd : (D.line m b).Nodup) (hother : ∀ b' ∈ (m.func f).layout, b' ≠ b → i ∉ D.line m b') :
    Drafted m (n.erase i) f { D with gone := Function.update D.gone i true } := by
  have hop' : (n.instr i).op ≠ .br := by
    rw [show (n.instr i).op = (m.instr i).op from (h.fits.instr_op hi).1]
    exact hop
  refine ⟨h.mirror.erase hop',Nat.le_trans h.literals (size_literalTable_erase n hop'),?_⟩
  cases hg : D.gone i with
  | false =>
    have hr := h.fits.kept i hi hg
    have hin : i ∈ (n.block b).instrs := by
      rw [instrs_eq_code,h.fits.block b hb]
      simp [Draft.line,hib,hg]
    rw [code_erase n hop' ((congrArg Instr.parent hr).trans hpar) hin]
    exact h.fits.erase hb hi hg hnd hother
  | true =>
    have hr := (h.fits.gone i hg).2
    have hc : (n.erase i).code = n.code := by
      rw [erase_eq n hop',show (n.instr i).parent = none from congrArg Instr.parent hr]
      simp only
      rw [code_dropOperands]
      have := Code.setOperands_self n.code i
      grind
    rw [hc,show Function.update D.gone i true = D.gone by rw [← hg,Function.update_eq_self]]
    exact h.fits

end Drafted
end CMinusF
