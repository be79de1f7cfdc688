import CMinusF.Proofs.Machine.Pairing

/-! Pairings in a row: what corresponds to something that corresponds to a third thing corresponds
to that. -/
namespace CMinusF

namespace Pairing

/-- The objects that are paired through one of a heap in between. -/
def comp (ι κ : Pairing) : Pairing := fun o q => ∃ p, ι o p ∧ κ p q

/-- The objects on the right of some pair, each with itself. -/
def range (ι : Pairing) : Pairing := fun p q => p = q ∧ ∃ o, ι o p

def below (n : Nat) : Pairing := fun o p => o = p ∧ o < n

end Pairing

open Pairing
variable {ι κ : Pairing}

theorem optionRel_comp {x y z : Option Nat} (hx : Option.Rel ι x y) (hy : Option.Rel κ y z) :
    Option.Rel (comp ι κ) x z := by
  cases hx with
  | none => cases hy; exact .none
  | some hp =>
    cases hy with
    | some hq => exact .some ⟨_,hp,hq⟩

theorem optionRel_range {x y : Option Nat} (hx : Option.Rel ι x y) : Option.Rel (range ι) y y := by
  cases hx with
  | none => exact .none
  | some hp => exact .some ⟨rfl,_,hp⟩

theorem Datum.Rel.comp {x y z : Datum} (hx : x.Rel ι y) (hy : y.Rel κ z) :
    x.Rel (Pairing.comp ι κ) z :=
  ⟨hx.int.trans hy.int,hx.float.trans hy.float,hx.address.index.trans hy.address.index,
    optionRel_comp hx.address.object hy.address.object⟩

theorem Datum.Rel.range {x y : Datum} (hx : x.Rel ι y) : y.Rel (Pairing.range ι) y :=
  ⟨rfl,rfl,rfl,optionRel_range hx.address.object⟩

theorem EndRel.comp {x y z : Except Fault Datum} (hx : EndRel ι x y) (hy : EndRel κ y z) :
    EndRel (Pairing.comp ι κ) x z := by
  cases hx with
  | error e => cases hy; exact .error e
  | ok hx =>
    cases hy with
    | ok hy => exact .ok (hx.comp hy)

namespace Heap.Rel
variable {h h' h'' : Heap}

theorem comp (hh : h.Rel ι h') (hh' : h'.Rel κ h'') : h.Rel (Pairing.comp ι κ) h'' where
  functional := by
    rintro o q q' ⟨p,hp,hq⟩ ⟨p',hp',hq'⟩
    exact hh'.functional p q q' hq (hh.functional o p p' hp hp' ▸ hq')
  injective := by
    rintro o o' q ⟨p,hp,hq⟩ ⟨p',hp',hq'⟩
    exact hh.injective o o' p hp (hh'.injective p p' q hq hq' ▸ hp')
  bound := by
    rintro o q ⟨p,hp,hq⟩
    exact ⟨(hh.bound o p hp).1,(hh'.bound p q hq).2⟩
  length := by
    rintro o q ⟨p,hp,hq⟩
    exact (hh.length o p hp).trans (hh'.length p q hq)
  cells := by
    rintro o q ⟨p,hp,hq⟩ j
    exact (hh.cells o p hp j).comp (hh'.cells p q hq j)

theorem self (hs : ∀ o p, κ o p → o = p ∧ o < h.size ∧
    ∀ j, ((h.get o).cells.get j).Rel κ ((h.get o).cells.get j)) : h.Rel κ h where
  functional o p q hp hq := (hs o p hp).1.symm.trans (hs o q hq).1
  injective o o' p hp hq := (hs o p hp).1.trans (hs o' p hq).1.symm
  bound o p hp := by
    obtain ⟨rfl,ho,-⟩ := hs o p hp
    exact ⟨ho,ho⟩
  length o p hp := by rw [(hs o p hp).1]
  cells o p hp := by
    obtain ⟨rfl,-,hc⟩ := hs o p hp
    exact hc

theorem range (hh : h.Rel ι h') : h'.Rel (Pairing.range ι) h' := by
  refine self ?_
  rintro p q ⟨rfl,o,ho⟩
  exact ⟨rfl,(hh.bound o p ho).2,fun j => (hh.cells o p ho j).range⟩

end Heap.Rel

theorem World.Rel.comp {w w' w'' : World} (hw : w.Rel ι w') (hw' : w'.Rel κ w'') :
    w.Rel (Pairing.comp ι κ) w'' :=
  ⟨hw.heap.comp hw'.heap,fun g => optionRel_comp (hw.globals g) (hw'.globals g),
    hw'.input.trans hw.input,hw'.output.trans hw.output⟩

theorem World.Rel.range {w w' : World} (hw : w.Rel ι w') : w'.Rel (Pairing.range ι) w' :=
  ⟨hw.heap.range,fun g => optionRel_range (hw.globals g),rfl,rfl⟩

/-- Two developments in a row, the second one begun where the first one has its right side. -/
theorem Evolves.comp {ι' κ' : Pairing} {h h' h1 h1' h2 : Heap} (hh : h.Rel ι h')
    (e : Evolves ι ι' h h' h1 h1') (e' : Evolves (Pairing.range ι) κ' h' h' h1' h2) :
    Evolves ι (Pairing.comp ι' κ') h h' h1 h2 where
  mono o p hp := ⟨p,e.mono o p hp,e'.mono p p ⟨rfl,o,hp⟩⟩
  fresh := by
    rintro o q ⟨p,hp,hq⟩
    rcases e.fresh o p hp with hp | ⟨ho,hp⟩
    · rcases e'.fresh p q hq with ⟨rfl,_⟩ | ⟨hp',_⟩
      · exact .inl hp
      · exact absurd (hh.bound o p hp).2 (Nat.not_lt.mpr hp')
    · rcases e'.fresh p q hq with ⟨rfl,o',ho'⟩ | ⟨_,hq⟩
      · exact absurd (hh.bound o' p ho').2 (Nat.not_lt.mpr hp)
      · exact .inr ⟨ho,hq⟩
  left_size := e.left_size
  right_size := e'.right_size
  left := e.left
  right q hq hn := e'.right q hq fun p hp => by
    obtain ⟨rfl,o,ho⟩ := hp
    exact hn o ho

/-! Worlds that are compared with themselves. -/

def Datum.Within (n : Nat) (x : Datum) : Prop := ∀ o, x.address.object = some o → o < n

/-- Addresses that are kept somewhere are of objects that exist. -/
structure World.Closed (w : World) : Prop where
  cells : ∀ o, o < w.heap.size → ∀ j, ((w.heap.get o).cells.get j).Within w.heap.size
  globals : ∀ g o, w.globals.get g = some o → o < w.heap.size

theorem Datum.Within.rel {n : Nat} {x : Datum} (h : x.Within n) : x.Rel (Pairing.below n) x := by
  refine ⟨rfl,rfl,rfl,?_⟩
  cases hx : x.address.object with
  | none => exact .none
  | some o => exact .some ⟨rfl,h o hx⟩

theorem World.Closed.rel {w : World} (h : w.Closed) : w.Rel (Pairing.below w.heap.size) w := by
  refine ⟨.self ?_,fun g => ?_,rfl,rfl⟩
  · rintro o p ⟨rfl,ho⟩
    exact ⟨rfl,ho,fun j => (h.cells o ho j).rel⟩
  · cases hg : w.globals.get g with
    | none => exact .none
    | some o => exact .some ⟨rfl,h.globals g o hg⟩

end CMinusF
