/-! JSON documents and their text. A document keeps what a reader of settings needs to know: whether a
number is whole, and whether a text has the surrogate halves that no character has. -/

namespace AccelKrylov.Json

/-- A number, by its sign and digits if it is written without fraction and exponent. -/
structure Numeral where
  negative : Bool
  whole : Option Nat
deriving DecidableEq

/-- A text as the numbers of its characters, surrogate halves from escapes included. -/
abbrev Units := List Nat

inductive Document where
  | null
  | bool (b : Bool)
  | number (n : Numeral)
  | string (s : Units)
  | array (items : List Document)
  | object (members : List (Units × Document))

/-! ### Texts -/

def isHighHalf (n : Nat) : Bool := 0xd800 ≤ n && n < 0xdc00

def isLowHalf (n : Nat) : Bool := 0xdc00 ≤ n && n < 0xe000

/-- The characters of a text, two halves making one; nothing for a half alone. -/
def characters? : Units → Option (List Char)
  | [] => some []
  | n :: m :: rest =>
    if isHighHalf n && isLowHalf m then
      (characters? rest).map (Char.ofNat (0x10000 + (n - 0xd800) * 0x400 + (m - 0xdc00)) :: ·)
    else if isHighHalf n || isLowHalf n then none
    else (characters? (m :: rest)).map (Char.ofNat n :: ·)
  | [n] => if isHighHalf n || isLowHalf n then none else some [Char.ofNat n]

def string? (s : Units) : Option String := (characters? s).map String.ofList

/-! ### Reading -/

/-! A piece of a document is read off the front of a text and comes with the text behind it. -/

def isSpace (c : Char) : Bool := c == ' ' || c == '\t' || c == '\n' || c == '\r'

def skipSpace (cs : List Char) : List Char := cs.dropWhile isSpace

def hexDigit? (c : Char) : Option Nat :=
  if '0' ≤ c ∧ c ≤ '9' then some (c.toNat - 48)
  else if 'a' ≤ c ∧ c ≤ 'f' then some (c.toNat - 87)
  else if 'A' ≤ c ∧ c ≤ 'F' then some (c.toNat - 55)
  else none

/-- What a letter after a backslash stands for. -/
def escaped? (c : Char) : Option Nat :=
  match c with
  | '"' => some 0x22
  | '\\' => some 0x5c
  | '/' => some 0x2f
  | 'b' => some 0x08
  | 'f' => some 0x0c
  | 'n' => some 0x0a
  | 'r' => some 0x0d
  | 't' => some 0x09
  | _ => none

/-- A text after its opening quote. -/
def units : List Char → Option (Units × List Char)
  | '"' :: rest => some ([], rest)
  | '\\' :: 'u' :: a :: b :: c :: d :: rest => do
    let n := (← hexDigit? a) * 4096 + (← hexDigit? b) * 256 + (← hexDigit? c) * 16 + (← hexDigit? d)
    let (s, rest) ← units rest
    some (n :: s, rest)
  | '\\' :: c :: rest => do
    let n ← escaped? c
    let (s, rest) ← units rest
    some (n :: s, rest)
  | c :: rest =>
    if c.toNat < 0x20 ∨ c = '\\' then none
    else do
      let (s, rest) ← units rest
      some (c.toNat :: s, rest)
  | [] => none

/-- One or more digits. -/
def digits (cs : List Char) : Option (List Char × List Char) :=
  match cs.takeWhile Char.isDigit with
  | [] => none
  | ds => some (ds, cs.dropWhile Char.isDigit)

def fraction : List Char → Option (Bool × List Char)
  | '.' :: rest => (digits rest).map fun (_, rest) => (true, rest)
  | cs => some (false, cs)

def exponent : List Char → Option (Bool × List Char)
  | c :: rest =>
    if c = 'e' ∨ c = 'E' then
      let unsigned := match rest with
        | '+' :: rest => rest
        | '-' :: rest => rest
        | rest => rest
      (digits unsigned).map fun (_, rest) => (true, rest)
    else some (false, c :: rest)
  | [] => some (false, [])

/-- A number; more than one digit never starts with a zero. -/
def numeral (cs : List Char) : Option (Numeral × List Char) := do
  let (negative, cs) := match cs with
    | '-' :: rest => (true, rest)
    | cs => (false, cs)
  let (ds, cs) ← digits cs
  if ds.head? = some '0' ∧ 1 < ds.length then none
  else
    let (f, cs) ← fraction cs
    let (e, cs) ← exponent cs
    let value := ds.foldl (fun n c => 10 * n + (c.toNat - 48)) 0
    some (⟨negative, if f || e then none else some value⟩, cs)

mutual

/-- A document at the front of a text, with at most `fuel` nested steps. -/
def value : (fuel : Nat) → List Char → Option (Document × List Char)
  | 0, _ => none
  | fuel + 1, cs =>
    match skipSpace cs with
    | 'n' :: 'u' :: 'l' :: 'l' :: rest => some (.null, rest)
    | 't' :: 'r' :: 'u' :: 'e' :: rest => some (.bool true, rest)
    | 'f' :: 'a' :: 'l' :: 's' :: 'e' :: rest => some (.bool false, rest)
    | '"' :: rest => (units rest).map fun (s, rest) => (.string s, rest)
    | '[' :: rest =>
      match skipSpace rest with
      | ']' :: rest => some (.array [], rest)
      | rest => (items fuel rest).map fun (l, rest) => (.array l, rest)
    | '\x7b' :: rest =>
      match skipSpace rest with
      | '\x7d' :: rest => some (.object [], rest)
      | rest => (members fuel rest).map fun (l, rest) => (.object l, rest)
    | rest => (numeral rest).map fun (n, rest) => (.number n, rest)

/-- One or more items, up to the closing bracket. -/
def items : (fuel : Nat) → List Char → Option (List Document × List Char)
  | 0, _ => none
  | fuel + 1, cs => do
    let (v, rest) ← value fuel cs
    match skipSpace rest with
    | ']' :: rest => some ([v], rest)
    | ',' :: rest =>
      let (vs, rest) ← items fuel rest
      some (v :: vs, rest)
    | _ => none

/-- One or more members, up to the closing brace. -/
def members : (fuel : Nat) → List Char → Option (List (Units × Document) × List Char)
  | 0, _ => none
  | fuel + 1, cs =>
    match skipSpace cs with
    | '"' :: rest => do
      let (key, rest) ← units rest
      match skipSpace rest with
      | ':' :: rest =>
        let (v, rest) ← value fuel rest
        match skipSpace rest with
        | '\x7d' :: rest => some ([(key, v)], rest)
        | ',' :: rest =>
          let (ms, rest) ← members fuel rest
          some ((key, v) :: ms, rest)
        | _ => none
      | _ => none
    | _ => none

end

/-- The document that a text holds. Every nested step but those into an item takes a character off the
text, so twice the length is fuel enough. -/
def parse? (text : String) : Option Document :=
  let cs := text.toList
  match value (2 * cs.length + 2) cs with
  | some (d, rest) => if (skipSpace rest).isEmpty then some d else none
  | none => none

/-! ### Writing -/

def hexChar (n : Nat) : Char := if n < 10 then Char.ofNat (48 + n) else Char.ofNat (87 + n)

/-- How a character is written inside quotes. -/
def escape (c : Char) : List Char :=
  match c with
  | '"' => ['\\', '"']
  | '\\' => ['\\', '\\']
  | '\n' => ['\\', 'n']
  | '\r' => ['\\', 'r']
  | '\t' => ['\\', 't']
  | '\x08' => ['\\', 'b']
  | '\x0c' => ['\\', 'f']
  | c =>
    if c.toNat < 0x20 then ['\\', 'u', '0', '0', hexChar (c.toNat / 16), hexChar (c.toNat % 16)]
    else [c]

/-- A text in quotes. -/
def quote (s : String) : String := String.ofList ('"' :: s.toList.flatMap escape ++ ['"'])

end AccelKrylov.Json
