import CMinusF.Proofs.Machine.BigStep
import Mathlib.Data.Option.Basic

/-! Two machines that do the same may number their objects differently. Their data are compared
through a pairing of objects; objects in no pair are private to one side. -/
namespace CMinusF
variable {ι ι' ι0 : Pairing} {a b : Address} {h h' h0 h0' : Heap} {o p : Nat} {w w' : World}

abbrev Pairing := Nat → Nat → Prop

theorem optionRel_imp {α β : Type} {r s : α → β → Prop} (h : ∀ a b, r a b → s a b) {x : Option α}
    {y : Option β} (hx : Option.Rel r x y) : Option.Rel s x y := by
  cases hx with
  | some hr => exact .some (h _ _ hr)
  | none => exact .none

structure Address.Rel (ι : Pairing) (a b : Address) : Prop where
  index : a.index = b.index
  object : Option.Rel ι a.object b.object

structure Datum.Rel (ι : Pairing) (x y : Datum) : Prop where
  int : x.int = y.int
  float : x.float = y.float
  address : x.address.Rel ι y.address

/-- Ends of two runs: the same fault, or values that correspond. -/
inductive EndRel (ι : Pairing) : Except Fault Datum → Except Fault Datum → Prop where
  | ok {x y : Datum} : x.Rel ι y → EndRel ι (.ok x) (.ok y)
  | error (e : Fault) : EndRel ι (.error e) (.error e)

namespace Datum.Rel

theorem mono (h : ∀ o p, ι o p → ι' o p) {x y : Datum} (hx : x.Rel ι y) : x.Rel ι' y :=
  ⟨hx.int,hx.float,hx.address.index,optionRel_imp h hx.address.object⟩

theorem null : Address.null.Rel ι Address.null := ⟨rfl,.none⟩

theorem zero : Datum.zero.Rel ι Datum.zero := ⟨rfl,rfl,null⟩

theorem ofInt (n : Int) : (Datum.ofInt n).Rel ι (.ofInt n) := ⟨rfl,rfl,null⟩

theorem ofFloat (x : Binary32) : (Datum.ofFloat x).Rel ι (.ofFloat x) := ⟨rfl,rfl,null⟩

theorem ofBool (b : Bool) : (Datum.ofBool b).Rel ι (.ofBool b) := ofInt _

theorem ofAddress (h : a.Rel ι b) : (Datum.ofAddress a).Rel ι (.ofAddress b) := ⟨rfl,rfl,h⟩

end Datum.Rel

/-- Paired objects hold the same. -/
structure Heap.Rel (ι : Pairing) (h h' : Heap) : Prop where
  functional : ∀ o p q, ι o p → ι o q → p = q
  injective : ∀ o o' p, ι o p → ι o' p → o = o'
  bound : ∀ o p, ι o p → o < h.size ∧ p < h'.size
  length : ∀ o p, ι o p → (h.get o).length = (h'.get p).length
  cells : ∀ o p, ι o p → ∀ j, ((h.get o).cells.get j).Rel ι ((h'.get p).cells.get j)

/-- How two heaps may go on together: pairs stay, new pairs are of new objects, and what was in no
pair is left alone. -/
structure Evolves (ι ι' : Pairing) (h h' h₁ h₁' : Heap) : Prop where
  mono : ∀ o p, ι o p → ι' o p
  fresh : ∀ o p, ι' o p → ι o p ∨ (h.size ≤ o ∧ h'.size ≤ p)
  left_size : h.size ≤ h₁.size
  right_size : h'.size ≤ h₁'.size
  left : ∀ o, o < h.size → (∀ p, ¬ ι o p) → h₁.get o = h.get o
  right : ∀ p, p < h'.size → (∀ o, ¬ ι o p) → h₁'.get p = h'.get p

namespace Evolves
variable {ι'' : Pairing} {h₁ h₁' h2 h2' : Heap}

theorem refl (ι : Pairing) (h h' : Heap) : Evolves ι ι h h' h h' :=
  ⟨fun _ _ => id,fun _ _ => .inl,Nat.le_refl _,Nat.le_refl _,fun _ _ _ => rfl,fun _ _ _ => rfl⟩

theorem left_private (e : Evolves ι ι' h h' h₁ h₁') (ho : o < h.size)
    (hp : ∀ p, ¬ ι o p) (p : Nat) :
    ¬ ι' o p := by
  intro hn
  rcases e.fresh o p hn with hi | hi
  · exact hp p hi
  · omega

theorem right_private (e : Evolves ι ι' h h' h₁ h₁') (hp : p < h'.size)
    (ho : ∀ o, ¬ ι o p) (o : Nat) :
    ¬ ι' o p := by
  intro hn
  rcases e.fresh o p hn with hi | hi
  · exact ho o hi
  · omega

theorem trans (e : Evolves ι ι' h h' h₁ h₁') (e' : Evolves ι' ι'' h₁ h₁' h2 h2') :
    Evolves ι ι'' h h' h2 h2' where
  mono o p hp := e'.mono o p (e.mono o p hp)
  fresh o p hp := by
    have := e.left_size
    have := e.right_size
    rcases e'.fresh o p hp with hp | hp
    · exact e.fresh o p hp
    · exact .inr ⟨by omega,by omega⟩
  left_size := Nat.le_trans e.left_size e'.left_size
  right_size := Nat.le_trans e.right_size e'.right_size
  left o ho hp := by
    rw [e'.left o (ho.trans_le e.left_size) (e.left_private ho hp),e.left o ho hp]
  right p hp ho := by
    rw [e'.right p (hp.trans_le e.right_size) (e.right_private hp ho),e.right p hp ho]

end Evolves

namespace Heap

theorem size_write (h : Heap) (ho : o < h.size) (i : Nat) (v : Datum) :
    (h.write o i v).size = h.size := by
  simp only [write,Table.size_modify]
  omega

theorem get_write_of_ne (h : Heap) (hne : o ≠ p) (i : Nat) (v : Datum) :
    (h.write o i v).get p = h.get p := by
  rw [write,Table.get_modify,if_neg hne]

theorem size_le_extend (h : Heap) (x : Object) : h.size ≤ (h.extend x).1.size := by simp [extend]

theorem get_extend_of_lt (h : Heap) (ho : o < h.size) (x : Object) :
    (h.extend x).1.get o = h.get o := by
  simp only [extend,Table.get_push,if_neg (Nat.ne_of_lt ho)]

theorem Rel.cell (hh : Rel ι h h') (ha : a.Rel ι b) :
    (h.cell? a = none ∧ h'.cell? b = none) ∨ ∃ o p i, h.cell? a = some (o,i) ∧
      h'.cell? b = some (p,i) ∧ ι o p := by
  obtain ⟨o,n⟩ := a
  obtain ⟨p,k⟩ := b
  obtain ⟨hi,ho⟩ := ha
  cases hi
  cases ho with
  | none => exact Or.inl ⟨rfl,rfl⟩
  | @some o p hp =>
    have hl := hh.length o p hp
    by_cases hin : 0 ≤ n ∧ n < (h.get o).length
    · refine Or.inr ⟨o,p,n.toNat,?_,?_,hp⟩
      · simp [cell?,hin]
      · simp [cell?,hl ▸ hin]
    · refine Or.inl ⟨?_,?_⟩
      · simp [cell?,hin]
      · simp [cell?,hl ▸ hin]

theorem Rel.write (hh : Rel ι h h') {i : Nat} {v v' : Datum} (hp : ι o p) (hv : v.Rel ι v') :
    Rel ι (h.write o i v) (h'.write p i v') ∧
    Evolves ι ι h h' (h.write o i v) (h'.write p i v') := by
  have hb := hh.bound o p hp
  refine ⟨⟨hh.functional,hh.injective,?_,?_,?_⟩,?_⟩
  · intro a b hab
    rw [size_write h hb.1,size_write h' hb.2]
    exact hh.bound a b hab
  · intro a b hab
    rw [length_write,length_write]
    exact hh.length a b hab
  · intro a b hab j
    rw [get_cells_write,get_cells_write]
    have hiff : o = a ↔ p = b :=
      ⟨fun e => hh.functional o p b hp (e ▸ hab),fun e => hh.injective o a p hp (e ▸ hab)⟩
    by_cases hoa : o = a ∧ i = j
    · rw [if_pos hoa,if_pos ⟨hiff.mp hoa.1,hoa.2⟩]
      exact hv
    · rw [if_neg hoa,if_neg (fun hpb => hoa ⟨hiff.mpr hpb.1,hpb.2⟩)]
      exact hh.cells a b hab j
  · refine ⟨fun _ _ => id,fun _ _ => .inl,?_,?_,fun a _ ha => ?_,fun b _ hb' => ?_⟩
    · exact Nat.le_of_eq (size_write h hb.1 i v).symm
    · exact Nat.le_of_eq (size_write h' hb.2 i v').symm
    · have hne : o ≠ a := by rintro rfl; exact ha p hp
      exact get_write_of_ne h hne i v
    · have hne : p ≠ b := by rintro rfl; exact hb' o hp
      exact get_write_of_ne h' hne i v'

theorem Rel.extend (hh : Rel ι h h') (n : Int) :
    let ι' : Pairing := fun o p => ι o p ∨ (o = h.size ∧ p = h'.size)
    let x := Object.zeros n
    Rel ι' (h.extend x).1 (h'.extend x).1 ∧
      Evolves ι ι' h h' (h.extend x).1 (h'.extend x).1 ∧
      (h.extend x).2.Rel ι' (h'.extend x).2 := by
  intro ι' x
  have hne : ∀ {o p}, ι o p → o ≠ h.size ∧ p ≠ h'.size := by
    intro o p hp
    have := hh.bound o p hp
    omega
  refine ⟨⟨?_,?_,?_,?_,?_⟩,⟨fun _ _ => .inl,?_,?_,?_,?_,?_⟩,⟨rfl,.some (.inr ⟨rfl,rfl⟩)⟩⟩
  · rintro o p q (hp | ⟨rfl,rfl⟩) (hq | ⟨hq,rfl⟩)
    · exact hh.functional o p q hp hq
    · exact absurd hq (hne hp).1
    · exact absurd rfl (hne hq).1
    · rfl
  · rintro o o' p (hp | ⟨rfl,rfl⟩) (hq | ⟨rfl,hq⟩)
    · exact hh.injective o o' p hp hq
    · exact absurd hq (hne hp).2
    · exact absurd rfl (hne hq).2
    · rfl
  · rintro o p (hp | ⟨rfl,rfl⟩)
    · have := hh.bound o p hp
      simp only [Heap.extend,Table.size_push]
      omega
    · simp [Heap.extend]
  · rintro o p (hp | ⟨rfl,rfl⟩)
    · simp only [Heap.extend,Table.get_push,if_neg (hne hp).1,if_neg (hne hp).2]
      exact hh.length o p hp
    · simp [Heap.extend,Table.get_push]
  · rintro o p (hp | ⟨rfl,rfl⟩) j
    · simp only [Heap.extend,Table.get_push,if_neg (hne hp).1,if_neg (hne hp).2]
      exact (hh.cells o p hp j).mono fun _ _ => .inl
    · simp only [Heap.extend,Table.get_push]
      exact .zero
  · grind
  · exact size_le_extend h x
  · exact size_le_extend h' x
  · exact fun o ho _ => get_extend_of_lt h ho x
  · exact fun p hp _ => get_extend_of_lt h' hp x

/-! What one side does to an object in no pair. -/

theorem Rel.of_left {h₁ : Heap} (hh : Rel ι h h') (hsize : h.size ≤ h₁.size)
    (hget : ∀ a b, ι a b → h₁.get a = h.get a) :
    Rel ι h₁ h' where
  functional := hh.functional
  injective := hh.injective
  bound a b hab := ⟨Nat.lt_of_lt_of_le (hh.bound a b hab).1 hsize,(hh.bound a b hab).2⟩
  length a b hab := by
    rw [hget a b hab]
    exact hh.length a b hab
  cells a b hab := by
    rw [hget a b hab]
    exact hh.cells a b hab

theorem Rel.write_left (hh : Rel ι h h') (ho : o < h.size) (hp : ∀ p, ¬ ι o p) (i : Nat)
    (v : Datum) :
    Rel ι (h.write o i v) h' := by
  refine hh.of_left (Nat.le_of_eq (size_write h ho i v).symm) fun a b hab =>
    get_write_of_ne h ?_ i v
  rintro rfl
  exact hp b hab

theorem Rel.extend_left (hh : Rel ι h h') (x : Object) : Rel ι (h.extend x).1 h' :=
  hh.of_left (size_le_extend h x) fun a b hab => get_extend_of_lt h (hh.bound a b hab).1 x

end Heap

theorem Evolves.of_left {h₁ : Heap} (e : Evolves ι0 ι h0 h0' h h') (hsize : h.size ≤ h₁.size)
    (hget : ∀ p < h0.size, h₁.get p = h.get p) : Evolves ι0 ι h0 h0' h₁ h' :=
  { e with
    left_size := Nat.le_trans e.left_size hsize
    left := fun p hp hn => (hget p hp).trans (e.left p hp hn) }

theorem Evolves.write_left (e : Evolves ι0 ι h0 h0' h h')
    (ho0 : h0.size ≤ o) (ho : o < h.size) (i : Nat) (v : Datum) :
    Evolves ι0 ι h0 h0' (h.write o i v) h' :=
  e.of_left (Nat.le_of_eq (Heap.size_write h ho i v).symm) fun p hp =>
    Heap.get_write_of_ne h (by omega) i v

theorem Evolves.extend_left (e : Evolves ι0 ι h0 h0' h h') (x : Object) :
    Evolves ι0 ι h0 h0' (h.extend x).1 h' :=
  e.of_left (Heap.size_le_extend h x) fun _ hp =>
    Heap.get_extend_of_lt h (hp.trans_le e.left_size) x

namespace Operation
variable {x x' : Instr} {ops ops' : List Datum}

theorem heap_execute (ha : x.op ≠ .alloca) (hs : x.op ≠ .store) (ops : List Datum) (h : Heap) :
    (execute x ops h).1 = h := by
  unfold execute
  cases ho : x.op with
  | alloca => exact absurd ho ha
  | store => exact absurd ho hs
  | load =>
    dsimp only
    split <;> rfl
  | _ => rfl

theorem result_rel (hop : x'.op = x.op) (hlen : ops'.length = ops.length)
    (hops : ∀ n, (ops.getD n .zero).Rel ι (ops'.getD n .zero)) (ha : x.op ≠ .alloca)
    (hl : x.op ≠ .load) (hs : x.op ≠ .store) :
    EndRel ι (execute x ops h).2 (execute x' ops' h').2 := by
  simp only [execute,hop,hlen]
  cases ho : x.op <;> dsimp only
  case int o =>
    rw [← (hops 0).int,← (hops 1).int]
    cases arith o (ops.getD 0 .zero).int (ops.getD 1 .zero).int with
    | ok n => exact .ok (.ofInt n)
    | error e => exact .error e
  case float o => rw [← (hops 0).float,← (hops 1).float]; exact .ok (.ofFloat _)
  case icmp r => rw [← (hops 0).int,← (hops 1).int]; exact .ok (.ofBool _)
  case fcmp r => rw [← (hops 0).float,← (hops 1).float]; exact .ok (.ofBool _)
  case alloca => exact absurd ho ha
  case load => exact absurd ho hl
  case store => exact absurd ho hs
  case gep =>
    refine .ok (.ofAddress ⟨?_,(hops 0).address.object⟩)
    rw [(hops 0).address.index,(hops (ops.length - 1)).int]
  case zext => rw [← (hops 0).int]; exact .ok (.ofInt _)
  case fptosi => rw [← (hops 0).float]; exact .ok (.ofInt _)
  case sitofp => rw [← (hops 0).int]; exact .ok (.ofFloat _)
  all_goals exact .error _

/-- Instructions that stay in their block do the same on data that correspond. -/
theorem execute_rel (hh : h.Rel ι h') (x x' : Instr) (ops ops' : List Datum) (hop : x'.op = x.op)
    (hobj : x'.object = x.object) (hlen : ops'.length = ops.length)
    (hops : ∀ n, (ops.getD n .zero).Rel ι (ops'.getD n .zero)) :
    ∃ ι', (execute x ops h).1.Rel ι' (execute x' ops' h').1 ∧
      Evolves ι ι' h h' (execute x ops h).1 (execute x' ops' h').1 ∧
      EndRel ι' (execute x ops h).2 (execute x' ops' h').2 := by
  have stay : ∀ {r r' : Except Fault Datum}, EndRel ι r r' →
      ∃ ι', h.Rel ι' h' ∧ Evolves ι ι' h h' h h' ∧ EndRel ι' r r' :=
        fun hr => ⟨ι,hh,.refl ι h h',hr⟩
  by_cases ha : x.op = .alloca
  · have ha' := hop.trans ha
    by_cases hl : (x.object.getD .void).length ≤ Object.limit
    · obtain ⟨h1,h2,h3⟩ := hh.extend (x.object.getD .void).length
      rw [execute_alloca_of_le ha hl,execute_alloca_of_le ha' (hobj ▸ hl),hobj]
      exact ⟨_,h1,h2,.ok (.ofAddress h3)⟩
    · have hl := Int.not_le.mp hl
      rw [execute_alloca_of_lt ha hl,execute_alloca_of_lt ha' (hobj ▸ hl)]
      exact stay (.error _)
  by_cases hl : x.op = .load
  · simp only [execute,hop,hl,Heap.read?]
    rcases hh.cell (hops 0).address with ⟨h1,h2⟩ | ⟨o,p,i,h1,h2,hp⟩
    · rw [h1,h2]
      exact stay (.error _)
    · rw [h1,h2]
      exact stay (.ok (hh.cells o p hp i))
  by_cases hs : x.op = .store
  · simp only [execute,hop,hs]
    rcases hh.cell (hops 1).address with ⟨h1,h2⟩ | ⟨o,p,i,h1,h2,hp⟩
    · rw [h1,h2]
      exact stay (.error _)
    · rw [h1,h2]
      obtain ⟨hw,he⟩ := hh.write hp (hops 0)
      exact ⟨ι,hw,he,.ok .zero⟩
  · rw [heap_execute ha hs,heap_execute (hop ▸ ha) (hop ▸ hs)]
    exact stay (result_rel hop hlen hops ha hl hs)

end Operation

/-- Worlds that look the same from inside, but for how often functions were called. -/
structure World.Rel (ι : Pairing) (w w' : World) : Prop where
  heap : w.heap.Rel ι w'.heap
  globals : ∀ g, Option.Rel ι (w.globals.get g) (w'.globals.get g)
  input : w'.input = w.input
  output : w'.output = w.output

theorem World.Rel.withHeap (hw : w.Rel ι w') (hh : h.Rel ι' h')
    (hm : ∀ o p, ι o p → ι' o p) : World.Rel ι' { w with heap := h } { w' with heap := h' } :=
  ⟨hh,fun g => optionRel_imp hm (hw.globals g),hw.input,hw.output⟩

namespace Run

theorem builtin_rel (hw : w.Rel ι w') (hc : w'.calls = w.calls) (name : String)
    {args args' : List Datum} (ha : (args.getD 0 .zero).Rel ι (args'.getD 0 .zero)) :
    (builtin name args w).1.Rel ι (builtin name args' w').1 ∧
      EndRel ι (builtin name args w).2 (builtin name args' w').2 ∧
      (builtin name args' w').1.calls = (builtin name args w).1.calls ∧
      Evolves ι ι w.heap w'.heap (builtin name args w).1.heap (builtin name args' w').1.heap ∧
      (builtin name args w).1.globals = w.globals ∧
      (builtin name args' w').1.globals = w'.globals := by
  simp only [builtin,← ha.int,← ha.float,hw.input,hw.output]
  split
  · rcases Input.readInteger w.input with ⟨n | e,rest⟩
    · exact ⟨⟨hw.heap,hw.globals,rfl,rfl⟩,.error _,hc,.refl ι _ _,rfl,rfl⟩
    · exact ⟨⟨hw.heap,hw.globals,rfl,rfl⟩,.ok (.ofInt _),hc,.refl ι _ _,rfl,rfl⟩
  · split
    · exact ⟨⟨hw.heap,hw.globals,rfl,rfl⟩,.ok .zero,hc,.refl ι _ _,rfl,rfl⟩
    · split
      · exact ⟨⟨hw.heap,hw.globals,rfl,rfl⟩,.ok .zero,hc,.refl ι _ _,rfl,rfl⟩
      · split
        · exact ⟨hw,.error _,hc,.refl ι _ _,rfl,rfl⟩
        · exact ⟨hw,.error _,hc,.refl ι _ _,rfl,rfl⟩

end Run
end CMinusF
