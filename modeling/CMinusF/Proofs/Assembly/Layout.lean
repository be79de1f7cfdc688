import CMinusF.Proofs.Assembly.Function
import CMinusF.Proofs.Graph.Verified
import Mathlib.Algebra.Order.BigOperators.Group.List
import Mathlib.Algebra.Ring.Int.Defs
import Mathlib.Data.List.Flatten

/-! What lies where in the frame of a function. Every argument, every value, every object and every
phi that is read while others are assigned has bytes of its own, below the saved registers. -/
namespace CMinusF.Assembly
open Numeric List
variable {m : Module} {f : FuncId} {fr : Frame} {i p : InstrId}

/-- What bytes of a frame are for. -/
inductive Owner where
  | arg (i : Nat)
  | value (i : InstrId)
  /-- What an `alloca` makes. -/
  | object (i : InstrId)
  /-- A phi, while others are assigned. -/
  | shadow (i : InstrId)
deriving DecidableEq

def objectSize (m : Module) (i : InstrId) : Int := ((m.instr i).object.getD .void).size

namespace Owner

def size (m : Module) (f : FuncId) : Owner → Int
  | .arg i => (m.typeOf (.arg f i)).size
  | .value i | .shadow i => (m.instr i).type.size
  | .object i => objectSize m i

def alignment (m : Module) (f : FuncId) : Owner → Int
  | .object _ => 8
  | o => o.size m f

/-- The sizes that there is room for: all but an object fits a register. -/
def Fits (m : Module) (f : FuncId) : Owner → Prop
  | .object i => 0 ≤ objectSize m i
  | o => 0 < o.size m f ∧ o.size m f ≤ 8

/-- The bytes that are taken at most. -/
def cost (m : Module) : Owner → Int
  | .object i => objectSize m i + 8
  | _ => 16

/-- Those of an instruction. -/
def ofInstr (m : Module) (i : InstrId) : List Owner :=
  if (m.instr i).type.isVoid then [] else .value i :: if (m.instr i).op = .alloca
    then [.object i] else []

/-- The owners that a function has. A phi is among them as a shadow if another phi, assigned at the
end of the same block as it is, takes its value. -/
def Of (m : Module) (f : FuncId) : Owner → Prop
  | .arg i => i < (m.func f).params.length
  | .value i => i ∈ m.instrs f ∧ (m.instr i).type.isVoid = false
  | .object i => i ∈ m.instrs f ∧ (m.instr i).type.isVoid = false ∧ (m.instr i).op = .alloca
  | .shadow i =>
    ∃ b ∈ (m.func f).layout, (∃ v, (i,v) ∈ edgeCopies m b) ∧ ∃ dst, dst ≠ i ∧
      (dst,.instr i) ∈ edgeCopies m b

/-- All that have bytes in the frame of a function, in the order in which they get them. -/
def all (m : Module) (f : FuncId) : List Owner :=
  (List.range (m.func f).params.length).map .arg ++ (m.instrs f).flatMap (ofInstr m) ++
    (shadowedPhis m f).map .shadow

end Owner

namespace Frame

/-- Where an owner's bytes start. -/
def start? (fr : Frame) : Owner → Option Int
  | .arg i => fr.args[i]?
  | .value i => fr.values[i]?
  | .object i => fr.objects[i]?
  | .shadow i => fr.shadows[i]?

/-- The frame with bytes for an owner at its low end, if it is an argument for the next. -/
def extend (fr : Frame) (used : Int) (slots : List Slot) (o : Owner) : Frame :=
  let fr := { fr with size := used, slots := slots }
  match o with
  | .arg _ => { fr with args := fr.args ++ [-used] }
  | .value i => { fr with values := fr.values.insert i (-used) }
  | .object i => { fr with objects := fr.objects.insert i (-used) }
  | .shadow i => { fr with shadows := fr.shadows.insert i (-used) }

section
variable (used : Int) (slots : List Slot) (o : Owner)

theorem start?_extend (o' : Owner) (h : ∀ a, o = .arg a → a = fr.args.length) :
    (fr.extend used slots o).start? o' = if o' = o then some (-used) else fr.start? o' := by
  cases o <;> cases o' <;> simp [extend,start?]
  case arg.arg a b =>
    obtain rfl := h a rfl
    grind
  all_goals grind

@[simp] theorem func_extend : (fr.extend used slots o).func = fr.func := by cases o <;> rfl
@[simp] theorem size_extend : (fr.extend used slots o).size = used := by cases o <;> rfl
@[simp] theorem slots_extend : (fr.extend used slots o).slots = slots := by cases o <;> rfl

end
end Frame

theorem alignUp_spec {n a : Int} (hn : 0 ≤ n) (ha : 0 < a) (h : n + a ≤ 9223372036854775807) :
    n ≤ alignUp n a ∧ alignUp n a < n + a ∧ a ∣ alignUp n a := by
  unfold alignUp
  split
  · obtain rfl : a = 1 := by omega
    exact ⟨le_refl n,by omega,one_dvd n⟩
  · have hlow := Int.ediv_mul_le (n + a - 1) (Int.ne_of_gt ha)
    have hhigh := Int.lt_ediv_add_one_mul_self (n + a - 1) ha
    rw [Int.add_mul,Int.one_mul] at hhigh
    rw [wrap64_of_range (n := n + a - 1) (by omega) (by omega),
      Int.tdiv_eq_ediv_of_nonneg (by omega),wrap64_of_range (by omega) (by omega)]
    exact ⟨by omega,by omega,Int.dvd_mul_left _ a⟩

namespace Frame

theorem overlap_mono {a b : Int} (hab : a ≤ b) : ∀ {ss : List Slot}, overlap b ss = none →
    overlap a ss = none
  | [], h => by
    unfold overlap at *
    split at h
    · cases h
    · rw [if_neg (by omega)]
  | s::ss, h => by
    unfold overlap at *
    grind

theorem overlap_insertSlot {s : Slot} {ss : List Slot} {a : Int} (h : overlap a ss = none)
    (hs : 0 < s.size) (ha : s.offset + s.size ≤ a) (hlow : -9223372036854775808 ≤ s.offset)
    (hhigh : a ≤ 0) :
    overlap s.offset (insertSlot s ss) = none := by
  have hfirst : insertSlot s ss = s :: ss := by
    cases ss with
    | nil => rfl
    | cons t ts =>
      unfold overlap at h
      split at h
      · cases h
      · rw [insertSlot,if_pos (by omega)]
  rw [hfirst,overlap,if_neg (lt_irrefl _),wrap64_of_range (by omega) (by omega)]
  exact overlap_mono ha h

theorem reserve_spec {n a : Int} (h : 0 ≤ fr.size) (hn : 0 ≤ n) (ha : 0 < a)
    (hroom : fr.size + n + a ≤ 9223372036854775807) :
    ∃ used, fr.reserve n a = ({ fr with size := used },-used) ∧ fr.size + n ≤ used ∧
      used < fr.size + n + a ∧ a ∣ used := by
  obtain ⟨h1,h2,h3⟩ := alignUp_spec (by omega) ha hroom
  refine ⟨alignUp (fr.size + n) a,?_,h1,h2,h3⟩
  simp only [reserve]
  rw [wrap64_of_range (by omega) (by omega),wrap64_of_range (by omega) (by omega)]

end Frame

/-- The bytes in use do not overlap, and the check of the slots finds nothing. -/
structure Packed (m : Module) (fr : Frame) : Prop where
  saved : Frame.savedBytes ≤ fr.size
  slots : Frame.overlap (-fr.size) fr.slots = none
  within : ∀ o a, fr.start? o = some a → -fr.size ≤ a ∧ a + o.size m fr.func ≤ -Frame.savedBytes ∧
    o.alignment m fr.func ∣ a
  apart : ∀ o o' a a', o ≠ o' → fr.start? o = some a → fr.start? o' = some a' →
    a + o.size m fr.func ≤ a' ∨ a' + o'.size m fr.func ≤ a

theorem Packed.extend (h : Packed m fr) {o : Owner} {used : Int} {slots : List Slot}
    (hnext : ∀ a, o = .arg a → a = fr.args.length) (hpos : 0 ≤ o.size m fr.func)
    (hlow : fr.size + o.size m fr.func ≤ used) (hbound : used ≤ 9223372036854775807)
    (halign : o.alignment m fr.func ∣ used) (hslots : slots = fr.slots ∨ 0 < o.size m fr.func ∧
      ∃ kind name, slots = insertSlot ⟨-used,o.size m fr.func,kind,name⟩ fr.slots) :
    Packed m (fr.extend used slots o) := by
  have hsaved := h.saved
  simp only [Frame.savedBytes] at hsaved
  refine ⟨?_,?_,?_,?_⟩ <;>
    simp only [Frame.func_extend,Frame.size_extend,Frame.slots_extend,Frame.savedBytes,
    Frame.start?_extend _ _ _ _ hnext]
  · omega
  · rcases hslots with rfl | ⟨hs,kind,name,rfl⟩
    · exact Frame.overlap_mono (by omega) h.slots
    · exact Frame.overlap_insertSlot (s := ⟨-used,o.size m fr.func,kind,name⟩) h.slots hs
        (by dsimp only; omega)
        (by dsimp only; omega) (by omega)
  · intro o' a ha
    split at ha
    · subst o'
      cases ha
      exact ⟨le_refl _,by omega,Int.dvd_neg.mpr halign⟩
    · have := h.within o' a ha
      exact ⟨by omega,this.2⟩
  · -- What is new lies below all that is old.
    intro o1 o2 a1 a2 hne h1 h2
    split at h1 <;> split at h2
    · exact absurd (by simp only [*]) hne
    · cases h1
      have := h.within o2 a2 h2
      subst o1
      omega
    · cases h2
      have := h.within o1 a1 h1
      subst o2
      omega
    · exact h.apart o1 o2 a1 a2 hne h1 h2

/-- A frame midway: `todo` is still to be placed. -/
structure Growing (m : Module) (f : FuncId) (todo : List Owner) (fr : Frame) : Prop where
  func : fr.func = f
  packed : Packed m fr
  nonneg : ∀ o ∈ todo, 0 ≤ o.size m f
  room : fr.size + (todo.map (Owner.cost m)).sum ≤ 9223372036854775776
  placed : ∀ o ∈ Owner.all m f, o ∈ todo ∨ (fr.start? o).isSome ∧ o.Fits m f

theorem Owner.sum_cost_nonneg {os : List Owner} (h : ∀ o ∈ os, 0 ≤ o.size m f) :
    0 ≤ (os.map (cost m)).sum := by
  refine sum_nonneg fun n hn => ?_
  obtain ⟨o,ho,rfl⟩ := mem_map.mp hn
  have := h o ho
  cases o <;> simp only [cost,size] at * <;> omega

namespace Growing
variable {o : Owner} {todo : List Owner} (h : Growing m f (o :: todo) fr)
include h

theorem reserve (ho : o.Fits m f) (hnext : ∀ a, o = .arg a → a = fr.args.length) :
    ∃ used, fr.reserve (o.size m f) (o.alignment m f) = ({ fr with size := used },-used) ∧
      ∀ slots, (slots = fr.slots ∨ 0 < o.size m f ∧
        ∃ kind name, slots = insertSlot ⟨-used,o.size m f,kind,name⟩ fr.slots) →
        Growing m f todo (fr.extend used slots o) := by
  obtain ⟨rfl,hp,hneg,hroom,hplaced⟩ := h
  rw [map_cons,sum_cons] at hroom
  have hrest := Owner.sum_cost_nonneg fun o ho => hneg o (.tail _ ho)
  have hsaved := hp.saved
  have hsize := hneg o (.head _)
  have hcost : 0 < o.alignment m fr.func ∧ o.size m fr.func + o.alignment m fr.func ≤ o.cost m := by
    cases o <;> simp only [Owner.Fits,Owner.size,Owner.alignment,Owner.cost] at * <;> omega
  simp only [Frame.savedBytes] at hsaved
  obtain ⟨used,hr,h1,h2,h3⟩ :=
    Frame.reserve_spec (show 0 ≤ fr.size by omega) hsize hcost.1 (by omega)
  refine ⟨used,hr,fun slots hslots => ⟨by simp,hp.extend hnext hsize h1 (by omega) h3 hslots,
    fun o ho => hneg o (.tail _ ho),?_,?_⟩⟩
  · rw [Frame.size_extend]
    omega
  · intro o' ho'
    rw [Frame.start?_extend _ _ _ _ hnext]
    by_cases heq : o' = o
    · subst heq
      exact .inr ⟨by simp,ho⟩
    · rw [if_neg heq]
      exact (hplaced o' ho').imp_left fun h => (mem_cons.mp h).resolve_left heq

theorem place {t : Ty} (name : String) (kind : SlotKind) (ht : t.size = o.size m f)
    (halign : o.alignment m f = o.size m f) (hfits : 0 < o.size m f ∧ o.size m f ≤ 8 → o.Fits m f)
    (hnext : ∀ a, o = .arg a → a = fr.args.length) :
    (t.size = 0 ∨ 8 < t.size) ∧ fr.place t name kind =
      .error (.unsupported (.slotSize name t.text)) ∨
    ∃ used slots, fr.place t name kind = .ok ({ fr with size := used, slots := slots },-used) ∧
      Growing m f todo (fr.extend used slots o) := by
  have hneg := h.nonneg o (.head _)
  unfold Frame.place
  split
  · exact .inl ⟨by assumption,rfl⟩
  · obtain ⟨used,hr,hg⟩ := h.reserve (hfits (by omega)) hnext
    rw [halign,← ht] at hr
    rw [hr]
    exact .inr ⟨used,_,rfl,hg _ (.inr ⟨by omega,kind,name,by rw [ht]⟩)⟩

end Growing

/-- What has a slot: the arguments and the instructions with a value. -/
def Slotted (m : Module) (f : FuncId) : Operand → Prop
  | .arg g i => g = f ∧ i < (m.func f).params.length
  | .instr i => i ∈ m.instrs f ∧ (m.instr i).type.isVoid = false
  | _ => False

/-- A failure that names an argument or a value whose size is no register's. -/
def Unplaceable (m : Module) (f : FuncId) (e : Failure) : Prop :=
  ∃ v, Slotted m f v ∧ ((m.typeOf v).size = 0 ∨ 8 < (m.typeOf v).size) ∧
    e.cause = .unsupported (.slotSize (m.refText v) (m.typeOf v).text)

section
variable {a : Nat} {todo : List Owner}

theorem Growing.placeArg (h : Growing m f (.arg a :: todo) fr) (ha : a < (m.func f).params.length)
    (hnext : a = fr.args.length) :
    Meets (Unplaceable m f) (fun fr' => fr'.args.length = a + 1 ∧ Growing m f todo fr')
    (m.blame f none (fr.placeArg m a)) := by
  obtain rfl := h.func
  rcases h.place (t := m.typeOf (.arg fr.func a)) (m.refText (.arg fr.func a)) .arg rfl rfl id
    (by rintro _ ⟨⟩; exact hnext) with
    ⟨hbad,he⟩ | ⟨used,slots,hok,hg⟩
  · simp only [Frame.placeArg,he]
    exact ⟨.arg fr.func a,⟨rfl,ha⟩,hbad,rfl⟩
  · simp only [Frame.placeArg,hok]
    exact ⟨by simp [hnext],hg⟩

theorem Growing.placeInstr (h : Growing m f (Owner.ofInstr m i ++ todo) fr) (hi : i ∈ m.instrs f) :
    Meets (Unplaceable m f) (Growing m f todo) (m.blame f (some i) (fr.placeInstr m i)) := by
  unfold Owner.ofInstr at h
  unfold Frame.placeInstr
  by_cases hvoid : (m.instr i).type.isVoid = true
  · simp only [hvoid] at h ⊢
    exact h
  · rw [if_neg hvoid] at h
    simp only [hvoid]
    rcases h.place (t := (m.instr i).type) (m.refText (.instr i)) .value rfl rfl id
      (by rintro _ ⟨⟩) with ⟨hbad,he⟩ | ⟨used,slots,hok,hg⟩
    · simp only [he]
      exact ⟨.instr i,⟨hi,eq_false_of_ne_true hvoid⟩,hbad,rfl⟩
    · simp only [hok]
      dsimp only [Bind.bind,Except.bind]
      by_cases hop : (m.instr i).op = .alloca
      · rw [if_pos hop] at hg
        obtain ⟨used',hr,hg'⟩ := hg.reserve (hg.nonneg _ (.head _)) (by rintro _ ⟨⟩)
        rw [if_neg (not_not.mpr hop)]
        have hr' : Frame.reserve
            { fr with size := used, slots := slots, values := fr.values.insert i (-used) }
          ((m.instr i).object.getD .void).size 8 = _ := hr
        rw [hr']
        by_cases hpos : 0 < ((m.instr i).object.getD .void).size
        · rw [if_pos hpos]
          exact hg' _ (.inr ⟨hpos,.object,"*" ++ m.refText (.instr i),rfl⟩)
        · rw [if_neg hpos]
          exact hg' slots (.inl rfl)
      · rw [if_neg hop] at hg
        rw [if_pos hop]
        exact hg

theorem Growing.placeShadow (h : Growing m f (.shadow p :: todo) fr)
    (hp : (Owner.shadow p).Fits m f) :
    Growing m f todo (Frame.placeShadow m fr p) := by
  obtain ⟨used,hr,hg⟩ := h.reserve hp (by rintro _ ⟨⟩)
  have hgrown := hg _ (.inr ⟨hp.1,.shadow,"'" ++ m.refText (.instr p),rfl⟩)
  simp only [Frame.placeShadow]
  simp only [Owner.size,Owner.alignment] at hr
  rw [hr]
  exact hgrown

theorem Growing.foldArgs
    (h : Growing m f ((List.range (m.func f).params.length).map .arg ++ todo) fr)
    (hargs : fr.args = []) :
    Meets (Unplaceable m f) (Growing m f todo)
      ((List.range (m.func f).params.length).foldlM
        (fun fr i => m.blame f none (fr.placeArg m i)) fr) := by
  refine Meets.mono (Meets.foldlM (Q := fun l (fr : Frame) => l = range' fr.args.length l.length ∧
    (∀ a ∈ l, a < (m.func f).params.length) ∧ Growing m f (l.map .arg ++ todo) fr)
      (fun fr a l hl => ?_) _ ?_) fun _ h => h.2.2
  · obtain ⟨hl,ha,hg⟩ := hl
    rw [length_cons,range'_succ,cons.injEq] at hl
    refine Meets.mono (hg.placeArg (ha a (.head _)) hl.1) fun fr' h' =>
      ⟨?_,fun b hb => ha b (.tail _ hb),h'.2⟩
    rw [h'.1,hl.1]
    exact hl.2
  · exact ⟨by simp [hargs,range_eq_range'],fun _ ha => mem_range.mp ha,h⟩

theorem Growing.foldInstrs (h : Growing m f ((m.instrs f).flatMap (Owner.ofInstr m) ++ todo) fr) :
    Meets (Unplaceable m f) (Growing m f todo)
    ((m.instrs f).foldlM (fun fr i => m.blame f (some i) (fr.placeInstr m i)) fr) := by
  refine Meets.mono (Meets.foldlM (Q := fun l fr => l ⊆ m.instrs f ∧
    Growing m f (l.flatMap (Owner.ofInstr m) ++ todo) fr)
    (fun fr i l hl => ?_) _ ⟨List.Subset.refl _,h⟩) fun _ h => h.2
  obtain ⟨hl,hg⟩ := hl
  rw [flatMap_cons,append_assoc] at hg
  exact Meets.mono (hg.placeInstr (hl (.head _))) fun _ h' => ⟨fun _ h => hl (.tail _ h),h'⟩

theorem Growing.foldShadows {ps : List InstrId} (h : Growing m f (ps.map .shadow) fr)
    (hps : ∀ p ∈ ps, (Owner.shadow p).Fits m f) :
    Growing m f [] (ps.foldl (Frame.placeShadow m) fr) := by
  induction ps generalizing fr with
  | nil => exact h
  | cons p ps ih => exact ih (h.placeShadow (hps p (.head _))) fun q hq => hps q (.tail _ hq)

end

/-! The shadows. -/

theorem mem_edgeCopies {b : BlockId} {v : Operand} :
    (p,v) ∈ edgeCopies m b ↔ ∃ c ∈ m.succs b, p ∈ m.phis c ∧ m.incomingFor? p b = some v := by
  simp only [edgeCopies,mem_flatMap,mem_filterMap,Option.map_eq_some_iff,Prod.mk.injEq]
  constructor
  · rintro ⟨c,hc,q,hq,w,hw,rfl,rfl⟩
    exact ⟨c,hc,hq,hw⟩
  · rintro ⟨c,hc,hp,hv⟩
    exact ⟨c,hc,p,hp,v,hv,rfl,rfl⟩

theorem mem_foldl {α β : Type} {y : β} {g : List β → α → List β} {P : α → Prop}
    (hg : ∀ ys x, y ∈ g ys x ↔ y ∈ ys ∨ P x) (l : List α) (ys : List β) :
    y ∈ l.foldl g ys ↔ y ∈ ys ∨ ∃ x ∈ l, P x := by
  induction l generalizing ys with
  | nil => simp
  | cons x l ih => simp [ih,hg,or_assoc]

theorem mem_staged {copies : List (InstrId × Operand)} :
    p ∈ staged copies ↔ (∃ v, (p,v) ∈ copies) ∧ ∃ dst, dst ≠ p ∧ (dst,.instr p) ∈ copies := by
  unfold staged
  rw [mem_foldl (P := fun x => (∃ v, (p,v) ∈ copies) ∧ x.1 ≠ p ∧ x.2 = .instr p)]
  · simp
    grind
  · intro done x
    split
    grind

theorem mem_shadowedPhis (ht : Tidy m f) (hv : m.verify f = .ok ()) :
    p ∈ shadowedPhis m f ↔ (Owner.shadow p).Of m f := by
  simp only [shadowedPhis,mem_flatMap,mem_filter,contains_iff_mem,Owner.Of,← mem_staged]
  constructor
  · rintro ⟨_,_,_,h⟩
    exact h
  · rintro ⟨b,hb,hp⟩
    obtain ⟨⟨v,hv'⟩,_⟩ := mem_staged.mp hp
    obtain ⟨c,hc,hpc,_⟩ := mem_edgeCopies.mp hv'
    exact ⟨c,ht.closed hv hb hc,hpc,b,hb,hp⟩

theorem Owner.mem_all (ht : Tidy m f) (hv : m.verify f = .ok ()) {o : Owner} :
    o ∈ Owner.all m f ↔ o.Of m f := by
  have hshadow := fun p => mem_shadowedPhis (p := p) ht hv
  have hinstr : o ∈ (m.instrs f).flatMap (Owner.ofInstr m) ↔
    (∃ i, o = .value i ∧ i ∈ m.instrs f ∧ (m.instr i).type.isVoid = false) ∨
      ∃ i, o = .object i ∧ i ∈ m.instrs f ∧ (m.instr i).type.isVoid = false ∧
        (m.instr i).op = .alloca := by
    simp only [mem_flatMap,Owner.ofInstr]
    grind
  simp only [Owner.all,mem_append,hinstr]
  cases o <;> simp [Owner.Of,hshadow]

theorem Owner.value_of_shadow (ht : Tidy m f) (hv : m.verify f = .ok ())
    (hp : (Owner.shadow p).Of m f) : (Owner.value p).Of m f := by
  obtain ⟨b,hb,⟨v,hp⟩,dst,_,hdst⟩ := hp
  have hmem : ∀ {q w}, (q,w) ∈ edgeCopies m b → q ∈ m.instrs f ∧ w ∈ m.operands q := by
    intro q w h
    obtain ⟨c,hc,hq,hw⟩ := mem_edgeCopies.mp h
    exact ⟨Module.mem_instrs_iff.mpr ⟨c,ht.closed hv hb hc,m.phis_subset c hq⟩,
      Module.mem_operands_of_incomingFor? hw⟩
  exact ⟨(hmem hp).1,(Tidy.operand hv (hmem hdst).1 (hmem hdst).2).2⟩

def allocas (m : Module) (f : FuncId) : List InstrId :=
  (m.instrs f).filter fun i => (m.instr i).op = .alloca

/-- Sizes that a frame has room for. -/
structure Moderate (m : Module) (f : FuncId) : Prop where
  arg : ∀ t ∈ (m.func f).params, 0 ≤ t.size
  instr : ∀ i ∈ m.instrs f, 0 ≤ (m.instr i).type.size
  object : ∀ i ∈ allocas m f, 0 ≤ objectSize m i
  total : ((allocas m f).map (objectSize m)).sum < 2 ^ 62
  count : (m.func f).params.length + (m.instrs f).length < 2 ^ 56

theorem Owner.sum_cost_all (hobj : ∀ i ∈ allocas m f, 0 ≤ objectSize m i) :
    ((Owner.all m f).map (Owner.cost m)).sum ≤
      16 * (m.func f).params.length + 40 * (m.instrs f).length +
        ((allocas m f).map (objectSize m)).sum := by
  have hconst : ∀ {α : Type} (l : List α) (g : α → Owner), (∀ a, Owner.cost m (g a) = 16) →
      (l.map (Owner.cost m ∘ g)).sum = 16 * l.length := by
    intro α l g hg
    induction l with
    | nil => rfl
    | cons a l ih => grind
  have hinstrs : (((m.instrs f).flatMap (Owner.ofInstr m)).map (Owner.cost m)).sum ≤
      24 * (m.instrs f).length + ((allocas m f).map (objectSize m)).sum := by
    unfold allocas at hobj ⊢
    generalize m.instrs f = is at hobj ⊢
    induction is with
    | nil => simp
    | cons i is ih =>
      simp only [flatMap_cons,Owner.ofInstr] at *
      grind [Owner.cost]
  have hshadows : (shadowedPhis m f).length ≤ (m.instrs f).length :=
    (List.Sublist.flatMap_right _ fun b _ => filter_sublist.trans (takeWhile_sublist _)).length_le
  simp only [Owner.all,map_append,sum_append,map_map]
  rw [hconst _ _ fun _ => rfl,hconst _ _ fun _ => rfl,length_range]
  omega

/-- Every owner that a function has got its bytes, and the frame is a whole number of stack units.
-/
structure Settled (m : Module) (f : FuncId) (fr : Frame) : Prop extends Packed m fr where
  func : fr.func = f
  placed : ∀ o : Owner, o.Of m f → (fr.start? o).isSome ∧ o.Fits m f
  aligned : Frame.alignment ∣ fr.size
  bound : fr.size ≤ 9223372036854775807

theorem Packed.widen (h : Packed m fr) {n : Int} (hn : fr.size ≤ n) :
    Packed m { fr with size := n } where
  saved := h.saved.trans hn
  slots := Frame.overlap_mono (by dsimp only; omega) h.slots
  within o a ha := ⟨le_trans (by dsimp only; omega) (h.within o a ha).1,(h.within o a ha).2⟩
  apart := h.apart

section
variable (ht : Tidy m f) (hv : m.verify f = .ok ()) (hm : Moderate m f)
include ht hv hm

theorem Moderate.start : Growing m f (Owner.all m f) ⟨f,Frame.savedBytes,[],[],∅,∅,∅⟩ := by
  have hcost := Owner.sum_cost_all hm.object
  have hcount := hm.count
  have htotal := hm.total
  refine ⟨rfl,⟨le_refl _,rfl,?_,?_⟩,fun o ho => ?_,?_,fun o ho => .inl ho⟩
  · rintro (_ | _ | _ | _) a ha <;> simp [Frame.start?] at ha
  · rintro (_ | _ | _ | _) o' a a' _ ha <;> simp [Frame.start?] at ha
  · rw [Owner.mem_all ht hv] at ho
    cases o with
    | arg i =>
      have hi : i < (m.func f).params.length := ho
      rw [Owner.size,show m.typeOf (.arg f i) = (m.func f).params[i] by simp [Module.typeOf,hi]]
      exact hm.arg _ (getElem_mem hi)
    | value i => exact hm.instr i ho.1
    | object i => exact hm.object i (mem_filter.mpr ⟨ho.1,by simpa using ho.2.2⟩)
    | shadow i => exact hm.instr i (Owner.value_of_shadow ht hv ho).1
  · simp only [Frame.savedBytes]
    omega

theorem Moderate.meets_layout : Meets (Unplaceable m f) (Settled m f) (Frame.layout m f) := by
  have hstart := hm.start ht hv
  rw [Owner.all,append_assoc] at hstart
  refine (hstart.foldArgs rfl).bind fun fr hfr => hfr.foldInstrs.bind fun fr hfr => ?_
  have hfits : ∀ p ∈ shadowedPhis m f, (Owner.shadow p).Fits m f := fun p hp =>
    have hval := Owner.value_of_shadow ht hv ((mem_shadowedPhis ht hv).mp hp)
    ((hfr.placed _ ((Owner.mem_all ht hv).mpr hval)).resolve_left (by simp)).2
  have hdone := hfr.foldShadows hfits
  generalize (shadowedPhis m f).foldl (Frame.placeShadow m) fr = fr at hdone
  have hroom := hdone.room
  have hsaved := hdone.packed.saved
  simp only [map_nil,sum_nil,Frame.savedBytes] at hroom hsaved
  obtain ⟨h1,h2,h3⟩ := alignUp_spec (n := fr.size) (a := 16) (by omega) (by decide) (by omega)
  have hw := hdone.packed.widen h1
  have hslots := hw.slots
  dsimp only [Frame.alignment] at hslots ⊢
  rw [wrap64_of_range (by omega) (by omega),hslots]
  exact ⟨hw,hdone.func,fun o ho => (hdone.placed o ((Owner.mem_all ht hv).mpr ho)).resolve_left
    (by simp),h3,by dsimp only; omega⟩

end

/-- A frame cannot be laid out only because no register has the size of an argument or a value.
Otherwise each owner has bytes of its own between the end of the frame and the saved registers. -/
theorem frame_regions {m : Module} {f : FuncId} (ht : Tidy m f) (hv : m.verify f = .ok ())
    (hm : Moderate m f) :
    (∃ e, Frame.layout m f = .error e ∧ Unplaceable m f e) ∨ ∃ fr, Frame.layout m f = .ok fr ∧
      Settled m f fr := by
  have h := hm.meets_layout ht hv
  cases hl : Frame.layout m f with
  | error e => exact .inl ⟨e,rfl,by rwa [hl] at h⟩
  | ok fr => exact .inr ⟨fr,rfl,by rwa [hl] at h⟩

/-- A loop in which two phis take each other's value; a third between them has no values. -/
def swapping (t : Ty) : Module :=
  let b (n : Nat) : BlockId := ⟨0,n⟩
  { name := "swap", globals := [], funcs := [0], globalTable := .empty
    funcTable := ⟨#[⟨"f",.i32,[.i32],[b 0,b 1,b 2],⟨#[
      ⟨"entry",[0,1],[],[b 1],[2,4]⟩,⟨"loop",[2,3,4,5,6],[b 0,b 1],[b 1,b 2],[1,2,4,6]⟩,
      ⟨"end",[7],[b 1],[],[6]⟩]⟩,6,⟨#[[2]]⟩,[]⟩]⟩
    instrTable := ⟨#[
      ⟨.alloca,.pointer (.array 3 .i32),some 0,some (.array 3 .i32),[],some (b 0),[]⟩,
      ⟨.br,.void,none,none,[.block (b 1)],some (b 0),[]⟩,
      ⟨.phi,.i32,some 1,none,[.arg 0 0,.block (b 0),.instr 4,.block (b 1)],some (b 1),[4,5,7]⟩,
      ⟨.phi,t,some 2,none,[],some (b 1),[]⟩,
      ⟨.phi,.i32,some 3,none,[.literal 0,.block (b 0),.instr 2,.block (b 1)],some (b 1),[2,5]⟩,
      ⟨.icmp .lt,.i1,some 4,none,[.instr 2,.instr 4],some (b 1),[6]⟩,
      ⟨.br,.void,none,none,[.instr 5,.block (b 1),.block (b 2)],some (b 1),[]⟩,
      ⟨.ret,.void,none,none,[.instr 2],some (b 2),[]⟩]⟩
    literalTable := ⟨#[⟨.int 7,[4]⟩]⟩ }

theorem swapping_tidy : Tidy (swapping .i1) 0 :=
  ⟨.of_entries (by decide) (by decide) (by decide),by decide,by decide,by decide⟩

theorem swapping_moderate : Moderate (swapping .i1) 0 :=
  ⟨by decide,by decide,by decide,by decide,by decide⟩

theorem frame_regions_swapping : Tidy (swapping .i1) 0 ∧ (swapping .i1).verify 0 = .ok () ∧
    Moderate (swapping .i1) 0 ∧
    ∃ fr, Frame.layout (swapping .i1) 0 = .ok fr ∧ Settled (swapping .i1) 0 fr ∧
      fr.start? (.object 0) = some (-48) ∧ fr.start? (.shadow 4) = some (-72) := by
  refine ⟨swapping_tidy,rfl,swapping_moderate,?_⟩
  have hstart : ((Frame.layout (swapping .i1) 0).toOption.map fun fr =>
    (fr.start? (.object 0),fr.start? (.shadow 4))) =
      some (some (-48),some (-72)) := by decide +kernel
  rcases frame_regions swapping_tidy rfl swapping_moderate with ⟨e,he,_⟩ | ⟨fr,hfr,hs⟩
  · rw [he] at hstart
    cases hstart
  · rw [hfr] at hstart
    have := Option.some.inj hstart
    simp_all

/-- A phi of a negative size makes two others share a slot, and the check does not see it. -/
theorem negative_size_shares : (swapping (.array (-1) .i32)).verify 0 = .ok () ∧
    (allocas (swapping (.array (-1) .i32)) 0).map
      (objectSize (swapping (.array (-1) .i32))) = [12] ∧
    ((Frame.layout (swapping (.array (-1) .i32)) 0).toOption.map fun fr =>
      (fr.start? (.value 2),fr.start? (.value 4))) =
      some (some (-52),some (-52)) := by
  decide +kernel

end CMinusF.Assembly
