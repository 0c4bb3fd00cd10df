import Calculation.Proofs.Edit.Kept

namespace Calculation

/-- What can be moved so many bytes and lines further on, and the symbols in it. -/
class Movable (α : Type) where
  move : Nat → Nat → α → α
  symbols : α → List Symbol

open Movable

variable {α β : Type} [Movable α] [Movable β]

instance : Movable Symbol :=
  ⟨fun bytes lines s => s.shifted bytes lines, fun s => [s]⟩

instance : Movable (List α) :=
  ⟨fun bytes lines => List.map (move bytes lines), List.flatMap symbols⟩

instance : Movable (α × β) :=
  ⟨fun bytes lines p => (move bytes lines p.1, move bytes lines p.2), fun p => symbols p.1 ++ symbols p.2⟩

instance : Movable (α ⊕ β) :=
  ⟨fun bytes lines => Sum.map (move bytes lines) (move bytes lines), Sum.elim symbols symbols⟩

instance : Movable (Option α) :=
  ⟨fun bytes lines => Option.map (move bytes lines), fun a => a.toList.flatMap symbols⟩

instance : Movable Range :=
  ⟨fun bytes _ r => r.shifted bytes, fun _ => []⟩

instance : Movable Bool :=
  ⟨fun _ _ b => b, fun _ => []⟩

instance : Movable LodScope :=
  ⟨fun _ _ s => s, fun _ => []⟩

def Token.shifted (bytes : Nat) (t : Token) : Token :=
  { t with range := t.range.shifted bytes }

def Lexeme.shifted (bytes : Nat) (l : Lexeme) : Lexeme :=
  { l with token := l.token.shifted bytes }

def Event.shifted (bytes : Nat) : Event → Event
  | .fault d => .fault (d.shifted bytes)
  | .valid => .valid

instance : Movable Token :=
  ⟨fun bytes _ t => t.shifted bytes, fun _ => []⟩

instance : Movable Event :=
  ⟨fun bytes _ e => e.shifted bytes, fun _ => []⟩

instance : Movable Statement.Clause :=
  ⟨fun bytes lines a => ⟨move bytes lines a.symbols, a.branches.map (·.shifted bytes), a.isComplete⟩, (·.symbols)⟩

instance : Movable Statement.CallPart :=
  ⟨fun bytes lines p => ⟨p.argument.shifted bytes, move bytes lines p.symbols⟩, (·.symbols)⟩

def Item.shifted (bytes lines : Nat) (i : Item) : Item :=
  ⟨i.range.shifted bytes, i.isStatement, move bytes lines i.symbols, i.events.map (·.shifted bytes)⟩

instance : Movable Item :=
  ⟨Item.shifted, (·.symbols)⟩

namespace Movable

variable {bytes lines : Nat}

@[simp] theorem move_pair (a : α) (b : β) : move bytes lines (a, b) = (move bytes lines a, move bytes lines b) := rfl

@[simp] theorem move_bool (b : Bool) : move bytes lines b = b := rfl

@[simp] theorem move_nil : move bytes lines ([] : List α) = [] := rfl

@[simp] theorem move_cons (a : α) (as : List α) :
    move bytes lines (a :: as) = move bytes lines a :: move bytes lines as := rfl

@[simp] theorem move_append (as bs : List α) :
    move bytes lines (as ++ bs) = move bytes lines as ++ move bytes lines bs :=
  List.map_append

@[simp] theorem move_flatten (ass : List (List α)) :
    move bytes lines ass.flatten = (move bytes lines ass).flatten :=
  List.map_flatten

@[simp] theorem symbols_nil : symbols ([] : List α) = [] := rfl

@[simp] theorem symbols_cons (a : α) (as : List α) : symbols (a :: as) = symbols a ++ symbols as := rfl

@[simp] theorem symbols_append (as bs : List α) : symbols (as ++ bs) = symbols as ++ symbols bs :=
  List.flatMap_append

@[simp] theorem symbols_pair (a : α) (b : β) : symbols (a, b) = symbols a ++ symbols b := rfl

@[simp] theorem symbols_inl (a : α) : symbols (.inl a : α ⊕ β) = symbols a := rfl

@[simp] theorem symbols_inr (b : β) : symbols (.inr b : α ⊕ β) = symbols b := rfl

@[simp] theorem symbols_clause (a : Statement.Clause) : symbols a = a.symbols := rfl

@[simp] theorem symbols_part (p : Statement.CallPart) : symbols p = p.symbols := rfl

@[simp] theorem symbols_bool (b : Bool) : symbols b = [] := rfl

@[simp] theorem symbols_token (t : Token) : symbols t = [] := rfl

@[simp] theorem symbols_scope (s : LodScope) : symbols s = [] := rfl

@[simp] theorem symbols_range (r : Range) : symbols r = [] := rfl

@[simp] theorem symbols_symbol (s : Symbol) : symbols s = [s] := rfl

@[simp] theorem symbols_list (ss : List Symbol) : symbols ss = ss := by
  induction ss with
  | nil => rfl
  | cons s ss ih => simp [ih]

@[simp] theorem symbols_flatten (ass : List (List α)) : symbols ass.flatten = symbols ass := by
  induction ass with
  | nil => rfl
  | cons as ass ih => simp [ih]

@[simp] theorem symbols_events (es : List Event) : symbols es = [] := by
  induction es with
  | nil => rfl
  | cons e es ih => exact ih

@[simp] theorem symbols_option_range (r : Option Range) : symbols r = [] := by
  cases r <;> rfl

theorem move_symbols (ss : List Symbol) : move bytes lines ss = Symbol.shiftedAll bytes lines ss :=
  (Symbol.shiftedAll_eq_map _ _ ss).symm

end Movable

theorem moved_nat (n k : Nat) : moved n (k : Int) = n + k := by
  simp only [moved]
  omega

namespace Range

theorem shifted_nat (r : Range) (k : Nat) : r.shifted (k : Int) = ⟨r.start + k, r.stop + k⟩ := by
  simp only [Range.shifted, moved_nat]

theorem shifted_cover (a b : Range) (k : Nat) :
    (a.cover b).shifted (k : Int) = (a.shifted (k : Int)).cover (b.shifted (k : Int)) := by
  simp only [shifted_nat, cover, Nat.add_min_add_right, Nat.add_max_add_right]

theorem shifted_contains (a b : Range) (k : Nat) :
    (a.shifted (k : Int)).contains (b.shifted (k : Int)) = a.contains b := by
  simp [shifted_nat, contains]

end Range

/-- A diagnostic moves with the range it points at when its cause names no other places, and with those that it
names otherwise. -/
theorem Cause.spanning_shifted (cause : Cause) (r : Range) (k : Nat) (h : cause.related = []) :
    cause.spanning (r.shifted (k : Int)) = (cause.spanning r).shifted k := by
  simp [Cause.spanning, Diagnostic.shifted, h]

theorem Cause.openCall_shifted (function : String) (name r : Range) (k : Nat) :
    (Cause.openCall function (name.shifted (k : Int))).spanning (r.shifted (k : Int)) =
      ((Cause.openCall function name).spanning r).shifted k := rfl

theorem Event.isStructural_shifted (e : Event) (k : Nat) : (e.shifted k).isStructural = e.isStructural := by
  cases e <;> rfl

theorem Event.any_isStructural_shifted (es : List Event) (k : Nat) :
    (es.map (·.shifted k)).any isStructural = es.any isStructural := by
  rw [List.any_map]
  congr 1
  funext e
  exact e.isStructural_shifted k

end Calculation
