import Mathlib.Tactic

/-!
Expressions with operations of two operands, the notation that puts an operation behind its
operands, and the stack machine that reads it: it computes the value of an expression, and what
it reads to a single value is the notation of an expression.
-/

namespace FortyTwo.Foundation

inductive StackSymbol (ℓ ω : Type*) where
  | operand (a : ℓ)
  | operation (o : ω)

inductive Expression (ℓ ω : Type*) where
  | operand (a : ℓ)
  | operation (o : ω) (left right : Expression ℓ ω)

namespace Expression

variable {ℓ ω : Type*}

def symbols : Expression ℓ ω → List (StackSymbol ℓ ω)
  | operand a => [.operand a]
  | operation o left right => left.symbols ++ right.symbols ++ [.operation o]

def eval {m : Type → Type} [Monad m] {α : Type} (value : ℓ → m α) (apply : ω → α → α → m α) :
    Expression ℓ ω → m α
  | operand a => value a
  | operation o left right => do
      let x ← left.eval value apply
      let y ← right.eval value apply
      apply o x y

end Expression

section Operands

variable {ℓ ω : Type*} {ε α : Type} {value : ℓ → Except ε α} {apply : ω → α → α → Except ε α}

/-- An expression with a value has operands with values. -/
theorem Expression.exists_value_of_eval {e : Expression ℓ ω} {x : α}
    (h : e.eval value apply = .ok x) {a : ℓ} (ha : .operand a ∈ e.symbols) :
    ∃ y, value a = .ok y := by
  induction e generalizing x with
  | operand b =>
      obtain rfl := StackSymbol.operand.inj (List.mem_singleton.mp ha)
      exact ⟨x, h⟩
  | operation o left right ihl ihr =>
      rw [Expression.eval] at h
      cases hleft : left.eval value apply with
      | error y =>
          rw [hleft] at h
          cases h
      | ok y =>
          cases hright : right.eval value apply with
          | error z =>
              rw [hleft, hright] at h
              cases h
          | ok z =>
              rw [Expression.symbols, List.mem_append, List.mem_append] at ha
              rcases ha with (ha | ha) | ha
              · exact ihl hleft ha
              · exact ihr hright ha
              · cases List.mem_singleton.mp ha

end Operands

section Machine

variable {ℓ ω : Type*} {ε α : Type}

/-- What one symbol does to the stack. -/
def readSymbol (value : ℓ → Except ε α) (apply : ω → α → α → Except ε α) (underflow : ε)
    (stack : List α) : StackSymbol ℓ ω → Except ε (List α)
  | .operand a => (value a).map (· :: stack)
  | .operation o =>
      match stack with
      | right :: left :: stack => (apply o left right).map (· :: stack)
      | _ => .error underflow

def readSymbols (value : ℓ → Except ε α) (apply : ω → α → α → Except ε α) (underflow : ε)
    (stack : List α) (symbols : List (StackSymbol ℓ ω)) : Except ε (List α) :=
  symbols.foldlM (readSymbol value apply underflow) stack

variable {value : ℓ → Except ε α} {apply : ω → α → α → Except ε α} {underflow : ε}

theorem readSymbols_cons (stack : List α) (symbol : StackSymbol ℓ ω)
    (rest : List (StackSymbol ℓ ω)) :
    readSymbols value apply underflow stack (symbol :: rest) =
      (readSymbol value apply underflow stack symbol >>= fun stack =>
        readSymbols value apply underflow stack rest) := List.foldlM_cons ..

theorem readSymbols_append (stack : List α) (front rest : List (StackSymbol ℓ ω)) :
    readSymbols value apply underflow stack (front ++ rest) =
      (readSymbols value apply underflow stack front >>= fun stack =>
        readSymbols value apply underflow stack rest) := List.foldlM_append ..

/-- The machine puts the value of an expression on the stack. -/
theorem readSymbols_symbols (e : Expression ℓ ω) (stack : List α) :
    readSymbols value apply underflow stack e.symbols =
      (e.eval value apply).map (· :: stack) := by
  induction e generalizing stack with
  | operand a =>
      rw [Expression.symbols, readSymbols_cons, readSymbol, Expression.eval]
      cases value a with
      | error x => rfl
      | ok x => rfl
  | operation o left right ihl ihr =>
      rw [Expression.symbols, readSymbols_append, readSymbols_append, ihl, Expression.eval]
      cases left.eval value apply with
      | error x => rfl
      | ok x =>
          change (readSymbols value apply underflow (x :: stack) right.symbols >>= _) = _
          rw [ihr]
          cases right.eval value apply with
          | error y => rfl
          | ok y =>
              change (readSymbols value apply underflow (y :: x :: stack) [.operation o]) =
                (apply o x y).map (· :: stack)
              rw [readSymbols_cons, readSymbol]
              cases apply o x y with
              | error z => rfl
              | ok z => rfl

/-- The stack holds the values of the expressions. -/
def Holds (value : ℓ → Except ε α) (apply : ω → α → α → Except ε α) (stack : List α)
    (es : List (Expression ℓ ω)) : Prop :=
  List.Forall₂ (fun x e => e.eval value apply = .ok x) stack es

/-- The notations of the expressions that a stack holds, the lowest first. -/
def written (es : List (Expression ℓ ω)) : List (StackSymbol ℓ ω) :=
  es.reverse.flatMap Expression.symbols

theorem written_cons (e : Expression ℓ ω) (es : List (Expression ℓ ω)) :
    written (e :: es) = written es ++ e.symbols := by
  rw [written, List.reverse_cons, List.flatMap_append, List.flatMap_singleton]
  rfl

/-- A symbol adds to what is written, and the stack holds what is written. -/
theorem holds_readSymbol {stack next : List α} {es : List (Expression ℓ ω)}
    {symbol : StackSymbol ℓ ω} (hes : Holds value apply stack es)
    (h : readSymbol value apply underflow stack symbol = .ok next) :
    ∃ es', Holds value apply next es' ∧ written es' = written es ++ [symbol] := by
  cases symbol with
  | operand a =>
      cases hvalue : value a with
      | error x =>
          rw [readSymbol, hvalue] at h
          cases h
      | ok x =>
          rw [readSymbol, hvalue] at h
          obtain rfl := Except.ok.inj h
          exact ⟨.operand a :: es, List.Forall₂.cons hvalue hes, written_cons _ _⟩
  | operation o =>
      cases hes with
      | nil => cases h
      | @cons y right _ _ hright hes =>
          cases hes with
          | nil => cases h
          | @cons x left stack es hleft hes =>
              cases hvalue : apply o x y with
              | error z =>
                  rw [readSymbol, hvalue] at h
                  cases h
              | ok z =>
                  rw [readSymbol, hvalue] at h
                  obtain rfl := Except.ok.inj h
                  refine ⟨.operation o left right :: es, List.Forall₂.cons ?_ hes, ?_⟩
                  · rw [Expression.eval, hleft, hright]
                    exact hvalue
                  · rw [written_cons, written_cons, written_cons, Expression.symbols,
                      List.append_assoc, List.append_assoc, List.append_assoc]

theorem holds_readSymbols {symbols : List (StackSymbol ℓ ω)} {stack final : List α}
    {es : List (Expression ℓ ω)} (hes : Holds value apply stack es)
    (h : readSymbols value apply underflow stack symbols = .ok final) :
    ∃ es', Holds value apply final es' ∧ written es' = written es ++ symbols := by
  induction symbols generalizing stack es with
  | nil =>
      obtain rfl := Except.ok.inj h
      exact ⟨es, hes, (List.append_nil _).symm⟩
  | cons symbol rest ih =>
      rw [readSymbols_cons] at h
      cases hnext : readSymbol value apply underflow stack symbol with
      | error x =>
          rw [hnext] at h
          cases h
      | ok next =>
          rw [hnext] at h
          obtain ⟨es', hes', hwritten⟩ := holds_readSymbol hes hnext
          obtain ⟨all, hall, htext⟩ := ih hes' h
          refine ⟨all, hall, ?_⟩
          rw [htext, hwritten, List.append_assoc]
          rfl

/-- What is read to a single value is the notation of an expression with that value. -/
theorem exists_expression {symbols : List (StackSymbol ℓ ω)} {x : α}
    (h : readSymbols value apply underflow [] symbols = .ok [x]) :
    ∃ e : Expression ℓ ω, symbols = e.symbols ∧ e.eval value apply = .ok x := by
  have hnone : Holds value apply [] ([] : List (Expression ℓ ω)) := List.Forall₂.nil
  obtain ⟨es, hes, hwritten⟩ := holds_readSymbols hnone h
  cases hes with
  | cons hx hes =>
      cases hes with
      | nil =>
          rw [written_cons] at hwritten
          exact ⟨_, hwritten.symm, hx⟩

/-- Only what has no symbols leaves no value. -/
theorem eq_nil_of_readSymbols {symbols : List (StackSymbol ℓ ω)}
    (h : readSymbols value apply underflow [] symbols = .ok []) : symbols = [] := by
  have hnone : Holds value apply [] ([] : List (Expression ℓ ω)) := List.Forall₂.nil
  obtain ⟨es, hes, hwritten⟩ := holds_readSymbols hnone h
  cases hes with
  | nil => exact hwritten.symm

private theorem eq_error_of_map {β γ : Type} {f : β → γ} {result : Except ε β} {x : ε}
    (h : result.map f = .error x) : result = .error x := by
  cases result with
  | error y => exact congrArg Except.error (Except.error.inj h)
  | ok b => cases h

/-- Where the errors of the machine come from. -/
theorem error_of_readSymbols {symbols : List (StackSymbol ℓ ω)} {stack : List α} {x : ε}
    (h : readSymbols value apply underflow stack symbols = .error x) :
    x = underflow ∨ (∃ a, value a = .error x) ∨ ∃ o left right, apply o left right = .error x := by
  induction symbols generalizing stack with
  | nil => cases h
  | cons symbol rest ih =>
      rw [readSymbols_cons] at h
      cases hnext : readSymbol value apply underflow stack symbol with
      | ok next =>
          rw [hnext] at h
          exact ih h
      | error y =>
          rw [hnext] at h
          obtain rfl := Except.error.inj h
          cases symbol with
          | operand a => exact Or.inr (Or.inl ⟨a, eq_error_of_map hnext⟩)
          | operation o =>
              rcases stack with _ | ⟨right, _ | ⟨left, stack⟩⟩
              · exact Or.inl (Except.error.inj hnext).symm
              · exact Or.inl (Except.error.inj hnext).symm
              · exact Or.inr (Or.inr ⟨o, left, right, eq_error_of_map hnext⟩)

end Machine

end FortyTwo.Foundation
