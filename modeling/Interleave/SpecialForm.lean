import Interleave.Expr.Printer

/-!
# Special forms

A compound that begins with a reference to `if`, `define` or `lambda` is a special form, whatever
these names are bound to. `SpecialForm` says which form it is and `Form` is the form taken apart.
The parts are checked before anything in them is evaluated.

## Checks

All that can be checked about a form without evaluating anything is checked when the form is met,
and `Form` holds only what passed: the name of a definition is a name, and the parameters of a
function are names, no two of them the same. The number of parts comes first. If it is right, the
first part that is of the wrong kind is the one reported, by its summary, and a summary of a number
that is too long breaks down.

A form is recognised by its first element alone. A program can define a name like `if`, and can call
what it is bound to under another name, but a compound that begins with `if` stays a conditional.
-/

namespace Interleave

/-- The names that make a compound a special form. -/
inductive SpecialForm where
  /-- A conditional. -/
  | conditional
  /-- A definition in the current frame. -/
  | definition
  /-- A function. -/
  | lambda
  deriving DecidableEq

namespace SpecialForm

def name : SpecialForm → String
  | conditional => "if"
  | definition => "define"
  | lambda => "lambda"

def ofName? (x : String) : Option SpecialForm :=
  if x = "if" then some conditional
  else if x = "define" then some definition
  else if x = "lambda" then some lambda
  else none

theorem ofName?_eq_some_iff {x : String} {k : SpecialForm} : ofName? x = some k ↔ x = k.name := by
  unfold ofName?
  constructor
  · intro h
    split at h
    · cases h; assumption
    · split at h
      · cases h; assumption
      · split at h
        · cases h; assumption
        · cases h
  · rintro rfl
    cases k <;> simp [name]

end SpecialForm

/-- A special form taken apart. -/
inductive Form where
  /-- A condition, what to evaluate unless it is false, and what to evaluate if it is. -/
  | conditional (condition consequent : Expr) (alternative : Option Expr)
  /-- A name and the expression for its value. -/
  | definition (name : String) (value : Expr)
  /-- Parameters, no two the same, and a body that is not empty. -/
  | lambda (params : List String) (body : List Expr)

namespace Form

/-- The fault of an expression of the wrong kind, whose message describes it. -/
def wrongKind (error : String → KindError) (e : Expr) : Fault :=
  match e.summary with
  | .ok text => .program (.kind (error text))
  | .error f => f

/-- The names in a parameter list that follow the names `before`. -/
def parameterNames (before : List String) : List Expr → Except Fault (List String)
  | [] => .ok before
  | .reference x :: es =>
    if x ∈ before then .error (.program (.kind (.repeatedParameter x)))
    else parameterNames (before ++ [x]) es
  | e :: _ => .error (wrongKind .parameterName e)

def parameters : Expr → Except Fault (List String)
  | .compound es => parameterNames [] es
  | e => .error (wrongKind .parameterList e)

/-- Takes the parts of a special form, the expressions after its name, apart. -/
def ofParts : SpecialForm → List Expr → Except Fault Form
  | .conditional, [c, t] => .ok (.conditional c t none)
  | .conditional, [c, t, e] => .ok (.conditional c t (some e))
  | .conditional, parts => .error (.program (.arity (.conditional (some parts.length))))
  | .definition, [.reference x, e] => .ok (.definition x e)
  | .definition, [e, _] => .error (wrongKind .definedName e)
  | .definition, _ => .error (.program (.arity .definition))
  | .lambda, params :: e :: body => (parameters params).map fun names ↦ .lambda names (e :: body)
  | .lambda, _ => .error (.program (.arity .lambda))

end Form

namespace Expr

/-- The special form that the elements of a compound make, and its parts. -/
def specialForm? : List Expr → Option (SpecialForm × List Expr)
  | .reference x :: parts => (SpecialForm.ofName? x).map (·, parts)
  | _ => none

end Expr

end Interleave
