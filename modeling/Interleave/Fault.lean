import Interleave.Value

/-!
# Faults

What can go wrong falls into two classes. A `ProgramError` is the fault of a program: it retires the
thread that runs the program and is reported, and the other threads go on. A `Breakdown` stops the
interpreter itself in the middle of what it does: a limit was reached, a file is missing, a setting
cannot be read. `Fault` joins the two, and each cause has one message.

## Messages

Messages are part of what the program does: they are printed, logged and handed to embedding
programs, and so every cause carries what its message needs. Values and expressions are described in
messages, and a description can itself break down, where an integer is too long to be written. The
fault is then the breakdown and not the error that was to be reported. `Fault.ofCallee` is such a
place.

A malformation has a place, which is the offset of a character. The type of places is the integers,
with none for faults that have no place: embedding programs may report errors of their own, and what
they give as a place is not checked.
-/

namespace Interleave

/-! ## Errors of programs -/

/-- What is malformed in a program text. -/
inductive Malformation where
  /-- A quote opens a string that never closes. -/
  | openString
  /-- A character that begins nothing. -/
  | unexpectedChar (c : Char)
  /-- A closing parenthesis with none open. -/
  | strayClose
  /-- The text ends inside a compound. -/
  | unclosed
  /-- A word that begins with a digit and is no numeral. -/
  | number (word : String)
  /-- Something an embedding program objects to, in its own words. -/
  | other (message : String)
  deriving DecidableEq

def Malformation.message : Malformation → String
  | openString => "Unterminated string literal"
  | unexpectedChar c => "Unexpected character " ++ Text.quoted (String.singleton c)
  | strayClose => "Unexpected ')'"
  | unclosed => "Unexpected end of input, expected ')'"
  | number word => "Malformed number " ++ Text.quoted word
  | other message => message

/-- A wrong number of arguments, or of parts of a special form. -/
inductive ArityError where
  /-- A conditional with too few or too many parts; their number is given if it was counted. -/
  | conditional (given : Option Nat)
  /-- A definition that is not a name and a value. -/
  | definition
  /-- A lambda without parameter list or body. -/
  | lambda
  /-- A primitive called with too few arguments. -/
  | primitive (name : String) (least given : Nat)
  /-- A closure called with another number of arguments than it has parameters. -/
  | closure (expected given : Nat)
  deriving DecidableEq

def ArityError.message : ArityError → String
  | conditional given =>
    "if requires a condition, a then-expression and an optional else-expression" ++
      match given with
      | some n => ", got " ++ Numeral.text n ++ " arguments"
      | none => ""
  | definition => "define requires exactly 2 arguments"
  | lambda => "lambda requires a parameter list and at least one body expression"
  | primitive name least given =>
    name ++ " requires at least " ++ Numeral.text least ++ " argument" ++
      (if least = 1 then "" else "s") ++ ", got " ++ Numeral.text given
  | closure expected given =>
    "Expected " ++ Numeral.text expected ++ " args, but was given " ++ Numeral.text given

/-- A value or an expression of the wrong kind. Offending expressions and values are given by their
descriptions. -/
inductive KindError where
  /-- A definition of something that is not a name. -/
  | definedName (got : String)
  /-- A lambda whose parameter list is not a compound. -/
  | parameterList (got : String)
  /-- A lambda parameter that is not a name. -/
  | parameterName (got : String)
  /-- A lambda with the same parameter twice. -/
  | repeatedParameter (name : String)
  /-- Arithmetic on something that is not an integer. -/
  | notInteger (primitive got : String)
  /-- A value where an expression belongs. -/
  | notExpression (got : String)
  /-- A value where a step belongs. -/
  | notStep (got : String)
  deriving DecidableEq

def KindError.message : KindError → String
  | definedName got => "define expects a name, got " ++ got
  | parameterList got => "lambda expects a parameter list, got " ++ got
  | parameterName got => "lambda parameters must be names, got " ++ got
  | repeatedParameter name => "Duplicate lambda parameter " ++ name
  | notInteger primitive got =>
    "All arguments to " ++ primitive ++ " must be integers, got " ++ got
  | notExpression got => "Invalid expression node " ++ got
  | notStep got => "Unknown step " ++ got

/-- An error of a program. -/
inductive ProgramError where
  /-- The text is malformed, at an offset if one is known. -/
  | malformed (what : Malformation) (position : Option Int)
  /-- No frame in scope binds the name. -/
  | unbound (name : String)
  /-- The frame already binds the name. -/
  | alreadyDefined (name : String)
  /-- A wrong number of arguments. -/
  | arity (e : ArityError)
  /-- A call of something that is no function, or of nothing at all. -/
  | notCallable (callee : Option Value)
  /-- A value or an expression of the wrong kind. -/
  | kind (e : KindError)
  /-- An error raised by an embedding program, in its own words. -/
  | raised (message : String)
  deriving DecidableEq

namespace ProgramError

/-- The class of an error, by which reports name it. -/
def label : ProgramError → String
  | malformed .. => "SpindleSyntaxError"
  | unbound _ => "SpindleUnboundReferenceError"
  | alreadyDefined _ => "SpindleDuplicateDefinitionError"
  | arity _ => "SpindleArityError"
  | notCallable _ => "SpindleNotCallableError"
  | kind _ => "SpindleTypeError"
  | raised _ => "SpindleError"

def message : ProgramError → String
  | malformed what none => what.message
  | malformed what (some position) =>
    what.message ++ " (at offset " ++ Numeral.text position ++ ")"
  | unbound name => "Cannot lookup unbound reference " ++ name
  | alreadyDefined name => name ++ " is already defined"
  | arity e => e.message
  | notCallable none => "Cannot apply an empty call: no function to invoke"
  | notCallable (some callee) => "Attempting to call a non-function: " ++ callee.inspectText
  | kind e => e.message
  | raised message => message

def report (e : ProgramError) : String :=
  e.label ++ ": " ++ e.message

end ProgramError

/-! ## Breakdowns -/

/-- Why a file cannot be read. -/
inductive FileError where
  /-- There is none at its path. -/
  | missing
  /-- There is a directory at its path. -/
  | directory
  /-- Its path leads through a file. -/
  | notDirectory
  /-- Its path, or a segment of it, is too long. -/
  | tooLong
  deriving DecidableEq

/-- The message of a file error, without the path. -/
def FileError.message : FileError → String
  | missing => "[Errno 2] No such file or directory"
  | directory => "[Errno 21] Is a directory"
  | notDirectory => "[Errno 20] Not a directory"
  | tooLong => "[Errno 36] File name too long"

/-- What stops the interpreter itself. -/
inductive Breakdown where
  /-- A numeral of this many digits is too long to be read. -/
  | numeralTooLong (digits : Nat)
  /-- An integer is too long to be written into a text. -/
  | integerTooLong
  /-- A thread without steps was told to take one. -/
  | emptyQueue
  /-- Expressions or calls are nested too deeply. -/
  | tooDeep
  /-- The file at a path cannot be read. -/
  | file (e : FileError) (path : String)
  /-- A path holds the null character. -/
  | nullInPath
  /-- A variable holds a text that is no integer. -/
  | badSetting (setting text : String)
  /-- A limit was set without a number. -/
  | numberlessLimit
  deriving DecidableEq

def Breakdown.message : Breakdown → String
  | numeralTooLong digits =>
    "Exceeds the limit (4300 digits) for integer string conversion: value has " ++
      Numeral.text digits ++ " digits; use sys.set_int_max_str_digits() to increase the limit"
  | integerTooLong =>
    "Exceeds the limit (4300 digits) for integer string conversion; " ++
      "use sys.set_int_max_str_digits() to increase the limit"
  | emptyQueue => "pop from an empty deque"
  | tooDeep => "maximum recursion depth exceeded"
  | file e path => e.message ++ ": " ++ Text.quoted path
  | nullInPath => "embedded null byte"
  | badSetting setting text => setting ++ " must be an integer, got " ++ Text.quoted text
  | numberlessLimit => "unsupported operand type(s) for -: 'list' and 'int'"

/-! ## Both -/

/-- An error of a program, or a breakdown of the interpreter. -/
inductive Fault where
  /-- An error of a program. -/
  | program (e : ProgramError)
  /-- A breakdown of the interpreter. -/
  | breakdown (b : Breakdown)
  deriving DecidableEq

def Fault.message : Fault → String
  | program e => e.message
  | breakdown b => b.message

/-- The text of a value as messages show it; an integer that is too long breaks the attempt off. -/
def Value.inspect (v : Value) : Except Fault String :=
  if v.isWritable then .ok v.inspectText else .error (.breakdown .integerTooLong)

/-- The fault of calling a value that is no function. Its message shows the value, so a call of an
integer that is too long to be shown breaks off instead. -/
def Fault.ofCallee (v : Value) : Fault :=
  if v.isWritable then .program (.notCallable (some v)) else .breakdown .integerTooLong

end Interleave
