import FortyTwo.Foundation.Lines
import FortyTwo.Foundation.Numerals
import FortyTwo.Foundation.StackMachine
import Mathlib.Data.List.TakeWhile

/-!
The constructor of `RPN` of `CPP09/ex01`, which evaluates the expression it is given. A `long`
has 64 bits; behind the characters of a string there is a zero.
-/

namespace FortyTwo.Cpp.RPN

open Foundation

abbrev Str := List Char

inductive Stop where
  | runtimeError (what : Str)
  | overflow
  /-- The top of an empty stack is read. -/
  | emptyStack
  deriving DecidableEq, Repr

theorem ok_bind {α β : Type} (a : α) (f : α → Except Stop β) : (.ok a >>= f) = f a := rfl

/-- The value of an operation on `long`s. -/
def long (n : Int) : Except Stop Int :=
  if -2 ^ 63 ≤ n ∧ n < 2 ^ 63 then .ok n else .error .overflow

/-- Of a string that begins with a digit. -/
def atol (s : Str) : Except Stop Int := long (decimal (s.takeWhile Char.isDigit))

/-- `isdigit(token[0])`. -/
def beginsWithDigit (token : Str) : Bool := (token.headD '\x00').isDigit

def isOperator (examinable : Str) : Bool :=
  examinable = ['+'] || examinable = ['-'] || examinable = ['*'] || examinable = ['/']

def top : List Int → Except Stop Int
  | [] => .error .emptyStack
  | a :: _ => .ok a

/-- What the operators have in common: `a` is taken from the stack first. -/
def operate (result : Int → Int → Except Stop Int) (stack : List Int) :
    Except Stop (List Int) := do
  let a ← top stack
  let stack := stack.tail
  let b ← top stack
  let stack := stack.tail
  let c ← result a b
  .ok (c :: stack)

def add : List Int → Except Stop (List Int) := operate fun a b => long (a + b)

def minus : List Int → Except Stop (List Int) := operate fun a b => long (b - a)

def times : List Int → Except Stop (List Int) := operate fun a b => long (a * b)

def divide : List Int → Except Stop (List Int) := operate fun a b =>
  if a = 0 then .error (.runtimeError "Error: division by 0".toList) else long (b.tdiv a)

def invalidExpression (text : Str) : Stop :=
  .runtimeError ("Error: Invalid expression ".toList ++ text)

/-- The body of the loop. -/
def readToken (expression : Str) (stack : List Int) (token : Str) : Except Stop (List Int) :=
  if !beginsWithDigit token && !isOperator token then .error (invalidExpression token)
  else if beginsWithDigit token then do
    let n ← atol token
    .ok (n :: stack)
  else if stack.length < 2 then .error (invalidExpression expression)
  else do
    let stack ← if token = ['+'] then add stack else .ok stack
    let stack ← if token = ['-'] then minus stack else .ok stack
    let stack ← if token = ['*'] then times stack else .ok stack
    if token = ['/'] then divide stack else .ok stack

def evaluate (expression : Str) : Except Stop Int := do
  let stack ← (getlines ' ' expression).foldlM (readToken expression) []
  if stack.length > 1 then .error (invalidExpression expression) else top stack

/-- What the constructor writes, and how it stops if it does not return. -/
def rpn (expression : Str) : Str × Option Stop :=
  match evaluate expression with
  | .ok result => (expression ++ '\n' :: (toString result).toList ++ ['\n'], none)
  | .error stop => (expression ++ ['\n'], some stop)

section Expressions

inductive Operator where
  | plus
  | minus
  | times
  | divided
  deriving DecidableEq, Repr

def Operator.sign : Operator → Char
  | plus => '+'
  | minus => '-'
  | times => '*'
  | divided => '/'

def Operator.apply : Operator → Int → Int → Option Int
  | plus, x, y => some (x + y)
  | minus, x, y => some (x - y)
  | times, x, y => some (x * y)
  | divided, x, y => if y = 0 then none else some (x.tdiv y)

/-- The value, if there is no division by zero. -/
def value (e : Expression Str Operator) : Option Int :=
  e.eval (fun digits => some (decimal digits : Int)) Operator.apply

def spelling : StackSymbol Str Operator → Str
  | .operand digits => digits
  | .operation o => [o.sign]

def IsNumber (token : Str) : Prop := token ≠ [] ∧ ∀ c ∈ token, c.isDigit = true

/-- The text is an expression over decimal numbers with that value, written with a blank between
each two of its symbols. -/
def IsValue (v : Int) (text : Str) : Prop :=
  ∃ e : Expression Str Operator, (∀ digits, .operand digits ∈ e.symbols → IsNumber digits) ∧
    text = [' '].intercalate (e.symbols.map spelling) ∧ value e = some v

end Expressions

/-- The value of an expression is written, everything else is refused, and there is always a
top where it is read. -/
structure Evaluates (expression : Str) : Prop where
  prints : ∀ v, IsValue v expression →
    rpn expression = (expression ++ '\n' :: (toString v).toList ++ ['\n'], none)
  throws : (¬∃ v, IsValue v expression) →
    ∃ what, rpn expression = (expression ++ ['\n'], some (.runtimeError what))
  top : (rpn expression).2 ≠ some .emptyStack

/-- Where no `long` overflows. -/
def EvaluatesRight (expression : Str) : Prop :=
  (rpn expression).2 ≠ some .overflow → Evaluates expression

section Tokens

/-- What a token stands for in the loop. -/
def symbolOf (token : Str) : StackSymbol Str Operator :=
  if token = ['+'] then .operation .plus
  else if token = ['-'] then .operation .minus
  else if token = ['*'] then .operation .times
  else if token = ['/'] then .operation .divided
  else .operand token

def tokenValue (token : Str) : Except Stop Int :=
  if beginsWithDigit token then atol token else .error (invalidExpression token)

def checkedApply : Operator → Int → Int → Except Stop Int
  | .plus, x, y => long (x + y)
  | .minus, x, y => long (x - y)
  | .times, x, y => long (x * y)
  | .divided, x, y =>
      if y = 0 then .error (.runtimeError "Error: division by 0".toList) else long (x.tdiv y)

theorem operate_cons (result : Int → Int → Except Stop Int) (a b : Int) (stack : List Int) :
    operate result (a :: b :: stack) = (result a b).map (· :: stack) := by
  rw [operate]
  change (result a b >>= _) = _
  cases result a b with
  | error stop => rfl
  | ok c => rfl

variable {expression token : Str} {stack : List Int}

/-- A sign as a token: two values are needed, and the one below is the left operand. -/
theorem readToken_sign (expression : Str) (stack : List Int) (o : Operator) :
    readToken expression stack [o.sign] =
      readSymbol tokenValue checkedApply (invalidExpression expression) stack (.operation o) := by
  rcases stack with _ | ⟨right, _ | ⟨left, stack⟩⟩
  · cases o
    all_goals rfl
  · cases o
    all_goals rfl
  · cases o with
    | plus =>
        have hadd : readToken expression (right :: left :: stack) ['+'] =
            (add (right :: left :: stack) >>= fun stack => .ok stack) := rfl
        rw [add, operate_cons, Int.add_comm] at hadd
        exact hadd.trans (bind_pure _)
    | minus =>
        have hminus : readToken expression (right :: left :: stack) ['-'] =
            (minus (right :: left :: stack) >>= fun stack => .ok stack) := rfl
        rw [minus, operate_cons] at hminus
        exact hminus.trans (bind_pure _)
    | times =>
        have htimes : readToken expression (right :: left :: stack) ['*'] =
            (times (right :: left :: stack) >>= fun stack => .ok stack) := rfl
        rw [times, operate_cons, Int.mul_comm] at htimes
        exact htimes.trans (bind_pure _)
    | divided =>
        have hdivide : readToken expression (right :: left :: stack) ['/'] =
            divide (right :: left :: stack) := rfl
        rw [divide, operate_cons] at hdivide
        exact hdivide

theorem exists_sign_of_isOperator (h : isOperator token = true) :
    ∃ o : Operator, token = [o.sign] := by
  rw [isOperator] at h
  simp only [Bool.or_eq_true, decide_eq_true_eq] at h
  rcases h with ((h | h) | h) | h
  · exact ⟨.plus, h⟩
  · exact ⟨.minus, h⟩
  · exact ⟨.times, h⟩
  · exact ⟨.divided, h⟩

theorem symbolOf_sign (o : Operator) : symbolOf [o.sign] = .operation o := by
  cases o
  all_goals rfl

theorem symbolOf_operand (h : isOperator token = false) : symbolOf token = .operand token := by
  rw [isOperator] at h
  simp only [Bool.or_eq_false_iff, decide_eq_false_iff_not] at h
  obtain ⟨⟨⟨hplus, hminus⟩, htimes⟩, hdivided⟩ := h
  rw [symbolOf, if_neg hplus, if_neg hminus, if_neg htimes, if_neg hdivided]

theorem spelling_symbolOf (token : Str) : spelling (symbolOf token) = token := by
  cases hoperator : isOperator token with
  | false => rw [symbolOf_operand hoperator, spelling]
  | true =>
      obtain ⟨o, rfl⟩ := exists_sign_of_isOperator hoperator
      rw [symbolOf_sign, spelling]

/-- The loop reads the tokens as the stack machine reads the symbols they stand for. -/
theorem readToken_eq (expression : Str) (stack : List Int) (token : Str) :
    readToken expression stack token =
      readSymbol tokenValue checkedApply (invalidExpression expression) stack (symbolOf token) := by
  cases hoperator : isOperator token with
  | true =>
      obtain ⟨o, rfl⟩ := exists_sign_of_isOperator hoperator
      rw [symbolOf_sign, readToken_sign]
  | false =>
      rw [symbolOf_operand hoperator, readSymbol, tokenValue, readToken, hoperator]
      cases hdigit : beginsWithDigit token with
      | false => rfl
      | true =>
          rw [if_neg (by decide), if_pos rfl, if_pos rfl]
          cases atol token with
          | error stop => rfl
          | ok n => rfl

theorem foldlM_readToken (expression : Str) (stack : List Int) (tokens : List Str) :
    tokens.foldlM (readToken expression) stack =
      readSymbols tokenValue checkedApply (invalidExpression expression) stack
        (tokens.map symbolOf) := by
  rw [readSymbols, List.foldlM_map]
  congr 1
  funext stack token
  exact readToken_eq expression stack token

end Tokens

section Values

/-- What is computed with `long`s beside the value, where none overflows. -/
inductive Agrees : Except Stop Int → Option Int → Prop where
  | overflow (result) : Agrees (.error .overflow) result
  | value (v) : Agrees (.ok v) (some v)
  | none (what) : Agrees (.error (.runtimeError what)) none

theorem agrees_long (n : Int) : Agrees (long n) (some n) := by
  rw [long]
  split
  · exact Agrees.value n
  · exact Agrees.overflow _

theorem Agrees.stop {stop : Stop} {result : Option Int} (h : Agrees (.error stop) result) :
    stop = .overflow ∨ ∃ what, stop = .runtimeError what := by
  cases h with
  | overflow => exact Or.inl rfl
  | none what => exact Or.inr ⟨what, rfl⟩

theorem Agrees.bind {computed : Except Stop Int} {result : Option Int}
    {f : Int → Except Stop Int} {g : Int → Option Int} (h : Agrees computed result)
    (hfg : ∀ v, Agrees (f v) (g v)) : Agrees (computed >>= f) (result >>= g) := by
  cases h with
  | overflow => exact Agrees.overflow _
  | value v => exact hfg v
  | none what => exact Agrees.none what

theorem agrees_apply (o : Operator) (x y : Int) : Agrees (checkedApply o x y) (o.apply x y) := by
  cases o with
  | plus => exact agrees_long _
  | minus => exact agrees_long _
  | times => exact agrees_long _
  | divided =>
      rw [checkedApply, Operator.apply]
      split
      · exact Agrees.none _
      · exact agrees_long _

theorem tokenValue_number {digits : Str} (h : IsNumber digits) :
    tokenValue digits = long (decimal digits) := by
  obtain ⟨hne, hdigits⟩ := h
  obtain ⟨c, rest, rfl⟩ := List.exists_cons_of_ne_nil hne
  have hc : beginsWithDigit (c :: rest) = true := hdigits c List.mem_cons_self
  rw [tokenValue, if_pos hc, atol, List.takeWhile_eq_self_iff.mpr hdigits]

theorem agrees_eval {e : Expression Str Operator}
    (h : ∀ digits, .operand digits ∈ e.symbols → IsNumber digits) :
    Agrees (e.eval tokenValue checkedApply) (value e) := by
  induction e with
  | operand digits =>
      rw [Expression.eval, tokenValue_number (h digits (List.mem_singleton_self _))]
      exact agrees_long _
  | operation o left right ihl ihr =>
      have hleft := ihl fun digits hmem =>
        h digits (List.mem_append_left _ (List.mem_append_left _ hmem))
      have hright := ihr fun digits hmem =>
        h digits (List.mem_append_left _ (List.mem_append_right _ hmem))
      exact hleft.bind fun x => hright.bind fun y => agrees_apply o x y

end Values

section Spelling

variable {e : Expression Str Operator}
  (h : ∀ digits, .operand digits ∈ e.symbols → IsNumber digits)

include h

theorem blank_not_mem_spelling {symbol : StackSymbol Str Operator} (hsymbol : symbol ∈ e.symbols) :
    spelling symbol ≠ [] ∧ ' ' ∉ spelling symbol := by
  cases symbol with
  | operand digits =>
      obtain ⟨hne, hdigits⟩ := h digits hsymbol
      refine ⟨hne, ?_⟩
      intro hblank
      cases hdigits ' ' hblank
  | operation o =>
      refine ⟨List.cons_ne_nil _ _, ?_⟩
      cases o
      all_goals simp [spelling, Operator.sign]

theorem getlines_spelling :
    getlines ' ' ([' '].intercalate (e.symbols.map spelling)) = e.symbols.map spelling := by
  apply getlines_intercalate
  intro line hline
  obtain ⟨symbol, hsymbol, rfl⟩ := List.mem_map.mp hline
  exact blank_not_mem_spelling h hsymbol

theorem isOperator_number {digits : Str} (hdigits : .operand digits ∈ e.symbols) :
    isOperator digits = false := by
  obtain ⟨-, hall⟩ := h digits hdigits
  rw [← Bool.not_eq_true]
  intro hoperator
  obtain ⟨o, rfl⟩ := exists_sign_of_isOperator hoperator
  have hsign := hall o.sign (List.mem_singleton_self _)
  cases o
  all_goals cases hsign

theorem map_symbolOf_spelling : (e.symbols.map spelling).map symbolOf = e.symbols := by
  have hback : ∀ symbol ∈ e.symbols, symbolOf (spelling symbol) = id symbol := by
    intro symbol hsymbol
    cases symbol with
    | operand digits => exact symbolOf_operand (isOperator_number h hsymbol)
    | operation o => exact symbolOf_sign o
  rw [List.map_map]
  exact (List.map_congr_left hback).trans (List.map_id _)

end Spelling

/-- The string is not empty, and where it is read as an expression with a value, it does not end
with a blank, and the tokens that begin with a digit are numbers. -/
structure Tight (expression : Str) : Prop where
  ne_nil : expression ≠ []
  strict : ∀ (e : Expression Str Operator) (v : Int),
    (getlines ' ' expression).map symbolOf = e.symbols → e.eval tokenValue checkedApply = .ok v →
      expression.getLast? ≠ some ' ' ∧
        ∀ token ∈ getlines ' ' expression, beginsWithDigit token = true → IsNumber token

section Runs

variable {expression : Str}

/-- What is written as an expression is evaluated as that. -/
theorem evaluate_of_symbols {e : Expression Str Operator}
    (h : (getlines ' ' expression).map symbolOf = e.symbols) :
    evaluate expression = e.eval tokenValue checkedApply := by
  rw [evaluate, foldlM_readToken, h, readSymbols_symbols]
  cases e.eval tokenValue checkedApply with
  | error stop => rfl
  | ok v => rfl

theorem evaluate_eq_ok {v : Int} : evaluate expression = .ok v ↔
    ∃ e : Expression Str Operator, (getlines ' ' expression).map symbolOf = e.symbols ∧
      e.eval tokenValue checkedApply = .ok v := by
  constructor
  · intro h
    rw [evaluate, foldlM_readToken] at h
    cases hstack : readSymbols tokenValue checkedApply (invalidExpression expression) []
        ((getlines ' ' expression).map symbolOf) with
    | error stop =>
        rw [hstack] at h
        cases h
    | ok stack =>
        rw [hstack] at h
        rcases stack with _ | ⟨x, _ | ⟨y, stack⟩⟩
        · cases h
        · obtain rfl : x = v := Except.ok.inj h
          exact exists_expression hstack
        · rw [ok_bind, if_pos (by simp)] at h
          cases h
  · rintro ⟨e, hsymbols, heval⟩
    rw [evaluate_of_symbols hsymbols, heval]

/-- The loop stops for an overflow or for what is thrown. -/
theorem evaluate_eq_error {stop : Stop} (h : evaluate expression = .error stop) :
    expression = [] ∨ stop = .overflow ∨ ∃ what, stop = .runtimeError what := by
  rw [evaluate, foldlM_readToken] at h
  cases hstack : readSymbols tokenValue checkedApply (invalidExpression expression) []
      ((getlines ' ' expression).map symbolOf) with
  | error stop' =>
      rw [hstack] at h
      obtain rfl : stop' = stop := Except.error.inj h
      right
      rcases error_of_readSymbols hstack with rfl | ⟨token, htoken⟩ | ⟨o, left, right, happly⟩
      · exact Or.inr ⟨_, rfl⟩
      · rw [tokenValue] at htoken
        split at htoken
        · have hlong := agrees_long (decimal (token.takeWhile Char.isDigit))
          rw [← atol, htoken] at hlong
          exact hlong.stop
        · exact Or.inr ⟨_, (Except.error.inj htoken).symm⟩
      · have happlied := agrees_apply o left right
        rw [happly] at happlied
        exact happlied.stop
  | ok stack =>
      rw [hstack] at h
      rcases stack with _ | ⟨x, _ | ⟨y, stack⟩⟩
      · left
        have hnil := eq_nil_of_readSymbols hstack
        rw [List.map_eq_nil_iff, getlines_eq_nil_iff] at hnil
        exact hnil
      · cases h
      · rw [ok_bind, if_pos (by simp)] at h
        exact Or.inr (Or.inr ⟨_, (Except.error.inj h).symm⟩)

theorem rpn_of_ok {v : Int} (h : evaluate expression = .ok v) :
    rpn expression = (expression ++ '\n' :: (toString v).toList ++ ['\n'], none) := by
  rw [rpn, h]

theorem rpn_of_error {stop : Stop} (h : evaluate expression = .error stop) :
    rpn expression = (expression ++ ['\n'], some stop) := by
  rw [rpn, h]

/-- The value of a text that is an expression is what is computed, unless a `long` overflows. -/
theorem IsValue.evaluate_eq {v : Int} (h : IsValue v expression)
    (hoverflow : (rpn expression).2 ≠ some .overflow) : evaluate expression = .ok v := by
  obtain ⟨e, hnumbers, rfl, hvalue⟩ := h
  have hsymbols := map_symbolOf_spelling hnumbers
  rw [← getlines_spelling hnumbers] at hsymbols
  have hevaluate := evaluate_of_symbols hsymbols
  have hagrees := agrees_eval hnumbers
  rw [← hevaluate, hvalue] at hagrees
  cases hresult : evaluate ([' '].intercalate (e.symbols.map spelling)) with
  | ok w =>
      rw [hresult] at hagrees
      cases hagrees
      rfl
  | error stop =>
      rw [hresult] at hagrees
      cases hagrees
      rw [rpn_of_error hresult] at hoverflow
      exact absurd rfl hoverflow

/-- A tight text that the machine finds a value for is an expression with that value. -/
theorem Tight.isValue (h : Tight expression) {v : Int} (hv : evaluate expression = .ok v) :
    IsValue v expression := by
  obtain ⟨e, hsymbols, heval⟩ := evaluate_eq_ok.mp hv
  obtain ⟨hlast, htokens⟩ := h.strict e v hsymbols heval
  have hspelling : e.symbols.map spelling = getlines ' ' expression := by
    have hback : ∀ token ∈ getlines ' ' expression, (spelling ∘ symbolOf) token = id token :=
      fun token _ => spelling_symbolOf token
    rw [← hsymbols, List.map_map]
    exact (List.map_congr_left hback).trans (List.map_id _)
  have hnumbers : ∀ digits, .operand digits ∈ e.symbols → IsNumber digits := by
    intro digits hmem
    obtain ⟨n, hn⟩ := Expression.exists_value_of_eval heval hmem
    have htoken : digits ∈ getlines ' ' expression := by
      rw [← hspelling]
      exact List.mem_map.mpr ⟨_, hmem, rfl⟩
    apply htokens digits htoken
    rw [tokenValue] at hn
    split at hn
    · next hdigit => exact hdigit
    · cases hn
  refine ⟨e, hnumbers, ?_, ?_⟩
  · rw [hspelling, intercalate_getlines hlast]
  · have hagrees := agrees_eval hnumbers
    rw [heval] at hagrees
    generalize value e = result at hagrees
    cases hagrees
    rfl

/-- An expression is tight. -/
theorem IsValue.strict {v : Int} (h : IsValue v expression) :
    expression.getLast? ≠ some ' ' ∧
      ∀ token ∈ getlines ' ' expression, beginsWithDigit token = true → IsNumber token := by
  obtain ⟨e, hnumbers, rfl, -⟩ := h
  constructor
  · apply getLast?_intercalate_ne
    intro line hline
    obtain ⟨symbol, hsymbol, rfl⟩ := List.mem_map.mp hline
    exact blank_not_mem_spelling hnumbers hsymbol
  · intro token htoken hdigit
    rw [getlines_spelling hnumbers] at htoken
    obtain ⟨symbol, hsymbol, rfl⟩ := List.mem_map.mp htoken
    cases symbol with
    | operand digits => exact hnumbers digits hsymbol
    | operation o =>
        cases o
        all_goals cases hdigit

theorem rpn_nil : rpn [] = (['\n'], some .emptyStack) := rfl

end Runs

/-- The constructor does what it should exactly for the texts that are tight. -/
theorem evaluatesRight_iff (expression : Str) : EvaluatesRight expression ↔ Tight expression := by
  constructor
  · intro h
    have hne : expression ≠ [] := by
      rintro rfl
      exact (h (by rw [rpn_nil]; simp)).top rfl
    refine ⟨hne, ?_⟩
    intro e v hsymbols heval
    have hrun := rpn_of_ok (evaluate_eq_ok.mpr ⟨e, hsymbols, heval⟩)
    have hright := h (by rw [hrun]; simp)
    have hvalue : ∃ w, IsValue w expression := by
      by_contra hnone
      obtain ⟨what, hwhat⟩ := hright.throws hnone
      rw [hrun] at hwhat
      cases congrArg Prod.snd hwhat
    obtain ⟨w, hw⟩ := hvalue
    exact hw.strict
  · intro h hoverflow
    have hstop : ∀ stop, evaluate expression = .error stop → ∃ what, stop = .runtimeError what := by
      intro stop hstop
      rcases evaluate_eq_error hstop with hnil | rfl | hwhat
      · exact absurd hnil h.ne_nil
      · rw [rpn_of_error hstop] at hoverflow
        exact absurd rfl hoverflow
      · exact hwhat
    refine ⟨?_, ?_, ?_⟩
    · intro v hv
      exact rpn_of_ok (hv.evaluate_eq hoverflow)
    · intro hnone
      cases hresult : evaluate expression with
      | ok v => exact absurd ⟨v, h.isValue hresult⟩ hnone
      | error stop =>
          obtain ⟨what, rfl⟩ := hstop stop hresult
          exact ⟨what, rpn_of_error hresult⟩
    · intro htop
      cases hresult : evaluate expression with
      | ok v =>
          rw [rpn_of_ok hresult] at htop
          cases htop
      | error stop =>
          obtain ⟨what, rfl⟩ := hstop stop hresult
          rw [rpn_of_error hresult] at htop
          cases Option.some.inj htop

/-- For the empty text the top of an empty stack is read. -/
theorem not_evaluatesRight : ¬∀ expression, EvaluatesRight expression := by
  intro hall
  have hright := hall [] (by rw [rpn_nil]; simp)
  exact hright.top rfl

end FortyTwo.Cpp.RPN
