import Multiparty.Bytes

/-!
# Reading JSON text

Values are read directly from the bytes of the text, without an intermediate tree: a reader takes
what it expects from the front and leaves the rest. A failure tells only whether the text ended too
early or is wrong. Strings that are compared must be valid UTF-8; values that are skipped are
checked for their grammar alone.

## Main definitions

* `JsonReader`: a reader and its failures.
* `JsonReader.number`, `JsonReader.bool`, `JsonReader.null`, `JsonReader.string`,
  `JsonReader.option`, `JsonReader.variant`, `JsonReader.list`, `JsonReader.exactly`: readers of
  values.
* `JsonReader.fields`: objects with named fields, which may also be written as lists.
* `JsonReader.skip`: any value, ignored.
* `JsonReader.document`: a whole text.
-/

namespace Multiparty

/-- Why a text is refused. -/
inductive JsonFault where
  /-- The text ends before the value does. -/
  | endOfText
  /-- The text is not JSON, or not of the expected form. -/
  | malformed
  deriving DecidableEq

/-- A reader of values: the value and the rest of the text. -/
def JsonReader (α : Type) : Type := Bytes → Except JsonFault (α × Bytes)

namespace JsonReader

variable {α β σ : Type}

instance : Monad JsonReader where
  pure a := fun b => .ok (a, b)
  bind m f := fun b =>
    match m b with
    | .ok (a, b) => f a b
    | .error e => .error e

/-- Refuses the text. -/
def fail (e : JsonFault) : JsonReader α := fun _ => .error e

/-! ### Characters -/

/-- The code of an ASCII character. -/
abbrev code (c : Char) : UInt8 := UInt8.ofNat c.toNat

/-- Whether a byte is JSON white space. -/
def isBlank (b : UInt8) : Bool := b = 32 || b = 10 || b = 9 || b = 13

/-- Whether a byte is a decimal digit. -/
def isDigit (b : UInt8) : Bool := 48 ≤ b && b ≤ 57

/-- The next byte, which is left in place, if there is one. -/
def peek : JsonReader (Option UInt8) := fun b => .ok (b.head?, b)

/-- The next byte after white space, which is left in place, if there is one. -/
def peekToken : JsonReader (Option UInt8) := fun b =>
  let b := b.dropWhile isBlank
  .ok (b.head?, b)

/-- Drops one byte. -/
def advance : JsonReader Unit := fun b => .ok ((), b.tail)

/-- Takes the next byte, which must exist. -/
def next : JsonReader UInt8 := fun b =>
  match b with
  | c :: b => .ok (c, b)
  | [] => .error .endOfText

/-- Takes a prescribed character after white space. -/
def token (c : Char) : JsonReader Unit := do
  match ← peekToken with
  | none => fail .endOfText
  | some b => if b = code c then advance else fail .malformed

/-- Takes the rest of a literal name. -/
def literal : List Char → JsonReader Unit
  | [] => pure ()
  | c :: cs => do
    if (← next) = code c then literal cs else fail .malformed

/-! ### Numbers -/

/-- The longest run of digits at the front. -/
def digits : JsonReader Bytes := fun b => .ok (b.takeWhile isDigit, b.dropWhile isDigit)

/-- The number that decimal digits write. -/
def digitsValue (ds : Bytes) : Nat := ds.foldl (fun n d => 10 * n + (d.toNat - 48)) 0

/-- How a number is written. -/
inductive Numeral where
  /-- Digits alone. -/
  | natural (n : Nat)
  /-- With a sign, a fraction or an exponent. -/
  | other

/-- The digits after a decimal point and an exponent, at least one digit each. -/
def fraction : JsonReader Bool := do
  let point ← do
    if (← peek) = some (code '.') then
      advance
      if (← digits).isEmpty then
        match ← peek with
        | none => fail .endOfText
        | some _ => fail .malformed
      else pure true
    else pure false
  let b ← peek
  if b = some (code 'e') ∨ b = some (code 'E') then
    advance
    let sign ← peek
    if sign = some (code '+') ∨ sign = some (code '-') then advance
    if isDigit (← next) then
      let _ ← digits
      pure true
    else fail .malformed
  else pure point

/-- A number, whose sign has been taken already. A leading zero stands alone. -/
def unsigned : JsonReader Numeral := do
  let first ← next
  if ¬ isDigit first then fail .malformed
  else
    let more ← digits
    if first = code '0' ∧ ¬ more.isEmpty then fail .malformed
    else if ← fraction then pure .other
    else pure (.natural (digitsValue (first :: more)))

/-- A number with an optional sign. -/
def numeral : JsonReader Numeral := do
  if (← peek) = some (code '-') then
    advance
    let _ ← unsigned
    pure .other
  else unsigned

/-- The number after a sign in a skipped value, where an early end counts as wrong. -/
def skipUnsigned : JsonReader Unit := fun b =>
  match unsigned b with
  | .ok (_, b) => .ok ((), b)
  | .error _ => .error .malformed

/-! ### Strings -/

/-- The value of a hexadecimal digit. -/
def hexDigit? (b : UInt8) : Option Nat :=
  if isDigit b then some (b.toNat - 48)
  else if 97 ≤ b ∧ b ≤ 102 then some (b.toNat - 87)
  else if 65 ≤ b ∧ b ≤ 70 then some (b.toNat - 55)
  else none

/-- The code unit written by the next four hexadecimal digits. All four bytes are taken before any
of them is looked at. -/
def hexUnit : JsonReader Nat := do
  let taken := [← next, ← next, ← next, ← next]
  match taken.mapM hexDigit? with
  | some ds => pure (ds.foldl (fun n d => 16 * n + d) 0)
  | none => fail .malformed

/-- The characters written by a backslash and one more character. -/
def simpleEscape? (b : UInt8) : Option Char :=
  if b = code '"' then some '"'
  else if b = code '\\' then some '\\'
  else if b = code '/' then some '/'
  else if b = code 'b' then some '\x08'
  else if b = code 'f' then some '\x0c'
  else if b = code 'n' then some '\n'
  else if b = code 'r' then some '\r'
  else if b = code 't' then some '\t'
  else none

/-- The bytes of an escaped code point, whose surrogates must come in pairs. -/
def unicodeEscape : JsonReader Bytes := do
  let unit ← hexUnit
  if 0xDC00 ≤ unit ∧ unit ≤ 0xDFFF then fail .malformed
  else if 0xD800 ≤ unit ∧ unit ≤ 0xDBFF then
    if (← next) ≠ code '\\' then fail .malformed
    if (← next) ≠ code 'u' then fail .malformed
    let low ← hexUnit
    if 0xDC00 ≤ low ∧ low ≤ 0xDFFF then
      pure (utf8 (0x10000 + (unit - 0xD800) * 0x400 + (low - 0xDC00)))
    else fail .malformed
  else pure (utf8 unit)
where
  /-- The encoding of a code point. -/
  utf8 (n : Nat) : Bytes := (String.singleton (Char.ofNat n)).toUTF8.toList

/-- The contents of a string after its opening quote. Every step takes at least one byte, so the
length of the text bounds their number. -/
def stringBody : (fuel : Nat) → (acc : List Bytes) → JsonReader Bytes
  | 0, _ => fail .endOfText
  | fuel + 1, acc => do
    let b ← next
    if b = code '"' then pure acc.reverse.flatten
    else if b < 32 then fail .malformed
    else if b = code '\\' then
      let e ← next
      match simpleEscape? e with
      | some c => stringBody fuel ([code c] :: acc)
      | none =>
        if e = code 'u' then stringBody fuel ((← unicodeEscape) :: acc) else fail .malformed
    else stringBody fuel ([b] :: acc)

/-- A string whose opening quote has been taken. -/
def stringRest : JsonReader String := fun b =>
  match stringBody (b.length + 1) [] b with
  | .error e => .error e
  | .ok (content, rest) =>
    match String.fromUTF8? (ByteArray.mk content.toArray) with
    | some s => .ok (s, rest)
    | none => .error .malformed

/-- Passes over the contents of a string after its opening quote. -/
def skipStringBody : (fuel : Nat) → JsonReader Unit
  | 0 => fail .endOfText
  | fuel + 1 => do
    let b ← next
    if b = code '"' then pure ()
    else if b < 32 then fail .malformed
    else if b = code '\\' then
      let e ← next
      if (simpleEscape? e).isSome then skipStringBody fuel
      else if e = code 'u' then
        let _ ← hexUnit
        skipStringBody fuel
      else fail .malformed
    else skipStringBody fuel

/-- Passes over a string whose opening quote has been taken. -/
def skipString : JsonReader Unit := fun b => skipStringBody (b.length + 1) b

/-! ### Skipped values -/

/-- What stands next in a skipped value. -/
inductive Place where
  /-- A value must follow. -/
  | value
  /-- A bracket has just been opened. -/
  | opened
  /-- A value has just ended. -/
  | ended

/-- The name of a member and its colon. -/
def skipName : JsonReader Unit := do
  token '"'
  skipString
  token ':'

/-- Passes over a value; `open` lists the open brackets, `true` for braces, innermost first. Every
two steps take at least one byte. -/
def skipFrom : (fuel : Nat) → (open_ : List Bool) → Place → JsonReader Unit
  | 0, _, _ => fail .malformed
  | fuel + 1, frames, .value => do
    match ← peekToken with
    | none => fail .endOfText
    | some b =>
      if b = code '[' then
        advance
        skipFrom fuel (false :: frames) .opened
      else if b = code '\x7b' then
        advance
        skipFrom fuel (true :: frames) .opened
      else
        if b = code 'n' then literal "null".toList
        else if b = code 't' then literal "true".toList
        else if b = code 'f' then literal "false".toList
        else if b = code '"' then
          advance
          skipString
        else if b = code '-' then
          advance
          skipUnsigned
        else if isDigit b then skipUnsigned
        else fail .malformed
        skipFrom fuel frames .ended
  | _ + 1, [], .opened => pure ()
  | fuel + 1, braces :: frames, .opened => do
    match ← peekToken with
    | none => fail .endOfText
    | some b =>
      if b = code (if braces then '\x7d' else ']') then
        advance
        skipFrom fuel frames .ended
      else
        if braces then skipName
        skipFrom fuel (braces :: frames) .value
  | _ + 1, [], .ended => pure ()
  | fuel + 1, braces :: frames, .ended => do
    match ← peekToken with
    | none => fail .endOfText
    | some b =>
      if b = code ',' then
        advance
        if braces then skipName
        skipFrom fuel (braces :: frames) .value
      else if b = code (if braces then '\x7d' else ']') then
        advance
        skipFrom fuel frames .ended
      else fail .malformed

/-- Passes over any value. -/
def skip : JsonReader Unit := fun b => skipFrom (2 * b.length + 2) [] .value b

/-! ### Values of an expected form -/

/-- Refuses the value that comes next. A text that ends within a name, a number or a string counts
as ending too early. -/
def refuse : JsonReader α := do
  match ← peekToken with
  | none => fail .endOfText
  | some b =>
    if b = code 'n' then literal "null".toList
    else if b = code 't' then literal "true".toList
    else if b = code 'f' then literal "false".toList
    else if b = code '"' then
      advance
      let _ ← stringRest
    else if b = code '-' ∨ isDigit b then
      let _ ← numeral
    fail .malformed

/-- A whole number below `bound`, written with digits alone. -/
def number (bound : Nat) : JsonReader Nat := do
  match ← peekToken with
  | none => fail .endOfText
  | some b =>
    if b = code '-' ∨ isDigit b then
      match ← numeral with
      | .natural n => if n < bound then pure n else fail .malformed
      | .other => fail .malformed
    else refuse

/-- A truth value. -/
def bool : JsonReader Bool := do
  match ← peekToken with
  | none => fail .endOfText
  | some b =>
    if b = code 't' then
      literal "true".toList
      pure true
    else if b = code 'f' then
      literal "false".toList
      pure false
    else refuse

/-- The value `null`. -/
def null : JsonReader Unit := do
  match ← peekToken with
  | none => fail .endOfText
  | some b => if b = code 'n' then literal "null".toList else refuse

/-- A string. -/
def string : JsonReader String := do
  match ← peekToken with
  | none => fail .endOfText
  | some b =>
    if b = code '"' then
      advance
      stringRest
    else refuse

/-- A value that may be `null`. -/
def option (item : JsonReader α) : JsonReader (Option α) := do
  if (← peekToken) = some (code 'n') then
    literal "null".toList
    pure none
  else some <$> item

/-- One of a list of named cases, written as its name or as an object that maps the name to
`null`. Anything else is refused without being read. -/
def variant (cases : List (String × α)) : JsonReader α := do
  match ← peekToken with
  | none => fail .endOfText
  | some b =>
    if b = code '\x7b' then
      advance
      let a ← case
      token ':'
      null
      token '\x7d'
      pure a
    else case
where
  /-- The case of a quoted name. -/
  case : JsonReader α := do
    token '"'
    match cases.lookup (← stringRest) with
    | some a => pure a
    | none => fail .malformed

/-- Whether a further item follows in an open list; its comma is taken. -/
def moreItems (first : Bool) (close : Char) : JsonReader Bool := do
  match ← peekToken with
  | none => fail .endOfText
  | some b =>
    if b = code close then pure false
    else if first then pure true
    else if b = code ',' then
      advance
      match ← peekToken with
      | none => fail .endOfText
      | some b => if b = code close then fail .malformed else pure true
    else fail .malformed

/-- The items of an open list up to its end. Each takes at least one byte. -/
def items (item : JsonReader α) : (fuel : Nat) → (first : Bool) → (acc : List α) →
    JsonReader (List α)
  | 0, _, _ => fail .malformed
  | fuel + 1, first, acc => do
    if ← moreItems first ']' then items item fuel false ((← item) :: acc)
    else pure acc.reverse

/-- A list of items. -/
def list (item : JsonReader α) : JsonReader (List α) := do
  match ← peekToken with
  | none => fail .endOfText
  | some b =>
    if b = code '[' then
      advance
      let as ← fun text => items item (text.length + 1) true [] text
      token ']'
      pure as
    else refuse

/-- A list of exactly `n` items. -/
def exactly (n : Nat) (item : JsonReader α) : JsonReader (List α) := do
  match ← peekToken with
  | none => fail .endOfText
  | some b =>
    if b = code '[' then
      advance
      let as ← take n true
      token ']'
      pure as
    else refuse
where
  /-- The next items of an open list. -/
  take : (n : Nat) → (first : Bool) → JsonReader (List α)
    | 0, _ => pure []
    | n + 1, first => do
      if ← moreItems first ']' then
        let a ← item
        let as ← take n false
        pure (a :: as)
      else fail .malformed

/-- A named field of a record under construction. -/
structure Field (σ : Type) where
  name : String
  /-- Whether the field has been read. -/
  isSet : σ → Bool
  /-- Reads the field. -/
  read : σ → JsonReader σ

/-- The members of an open object up to its end. A known field may stand only once; unknown ones
are skipped. -/
def members (known : List (Field σ)) : (fuel : Nat) → (first : Bool) → σ → JsonReader σ
  | 0, _, _ => fail .malformed
  | fuel + 1, first, s => do
    if ← moreItems first '\x7d' then
      if (← peek) ≠ some (code '"') then fail .malformed
      let name ← string
      match known.find? (·.name = name) with
      | some field =>
        if field.isSet s then fail .malformed
        token ':'
        members known fuel false (← field.read s)
      | none =>
        token ':'
        skip
        members known fuel false s
    else pure s

/-- The fields of an open list by position. Missing ones at the end are allowed if `partly`. -/
def positions (partly : Bool) : List (Field σ) → (first : Bool) → σ → JsonReader σ
  | [], _, s => pure s
  | field :: rest, first, s => do
    if ← moreItems first ']' then positions partly rest false (← field.read s)
    else if partly then pure s
    else fail .malformed

/-- A record whose fields are written as an object by name or as a list by position. In an object
fields may be missing; in a list only if `partly`. -/
def fields (known : List (Field σ)) (partly : Bool) (s : σ) : JsonReader σ := do
  match ← peekToken with
  | none => fail .endOfText
  | some b =>
    if b = code '[' then
      advance
      let s ← positions partly known true s
      token ']'
      pure s
    else if b = code '\x7b' then
      advance
      let s ← fun text => members known (text.length + 1) true s text
      token '\x7d'
      pure s
    else refuse

/-- A field that must have been read. -/
def require (a : Option α) : JsonReader α :=
  match a with
  | some a => pure a
  | none => fail .malformed

/-- The value of a whole text, after which only white space may stand. -/
def document (value : JsonReader α) (text : Bytes) : Except JsonFault α :=
  match (do let a ← value; let rest ← peekToken; pure (a, rest) : JsonReader _) text with
  | .error e => .error e
  | .ok ((a, none), _) => .ok a
  | .ok ((_, some _), _) => .error .malformed

end JsonReader

end Multiparty
