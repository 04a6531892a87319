import Offside.Text.Basic

/-!
# TOML: blanks, comments and strings

The parts of a TOML document that hold no structure, and its four kinds of
strings. Readers take what they read off the front of a text and give the rest.
-/
namespace Offside

namespace Toml

/-! ## Blanks and comments -/

/-- White space within a line. -/
def isBlank (c : Char) : Bool := c == ' ' || c == '\t'

/-- What a comment may hold: anything but controls; a tab is allowed. -/
def isCommentChar (c : Char) : Bool :=
  c == '\t' || (0x20 ≤ c.toNat && c.toNat ≤ 0x7e) || 0x80 ≤ c.toNat

def skipBlanks (t : Text) : Text := t.dropWhile isBlank

/-- What follows a newline at the front of a text. -/
def newline? : Text → Option Text
  | '\n' :: rest => some rest
  | '\r' :: '\n' :: rest => some rest
  | _ => none

/-- What follows the rest of a line that holds no more than a comment; the end
of the text ends a line too. -/
def lineEnd? (t : Text) : Option Text :=
  match skipBlanks t with
  | [] => some []
  | '#' :: rest =>
    match rest.dropWhile isCommentChar with
    | [] => some []
    | after => newline? after
  | after => newline? after

/-- Skips blanks and newlines, and comments if `comments` says so; `within`
tells whether a comment has begun. -/
def skipGaps (comments within : Bool) : Text → Text
  | [] => []
  | c :: rest =>
    if within && isCommentChar c then skipGaps comments true rest
    else if comments && c == '#' then skipGaps comments true rest
    else if isBlank c || c == '\n' || (c == '\r' && rest.head? == some '\n') then
      skipGaps comments false rest
    else c :: rest

/-! ## Strings -/

/-- The value of a hexadecimal digit. -/
def hexDigit? (c : Char) : Option Nat :=
  if '0' ≤ c ∧ c ≤ '9' then some (c.toNat - '0'.toNat)
  else if 'a' ≤ c ∧ c ≤ 'f' then some (c.toNat - 'a'.toNat + 10)
  else if 'A' ≤ c ∧ c ≤ 'F' then some (c.toNat - 'A'.toNat + 10)
  else none

/-- A character given by a code point of exactly `n` hexadecimal digits. -/
def codePoint? (n : Nat) (t : Text) : Option (Char × Text) :=
  match (t.take n).mapM hexDigit? with
  | some ds =>
    let v := ds.foldl (fun v d => 16 * v + d) 0
    if ds.length = n ∧ v.isValidChar then some (Char.ofNat v, t.drop n) else none
  | none => none

/-- The character that an escape stands for, behind its backslash. -/
def escape? : Text → Option (Char × Text)
  | 'b' :: rest => some ('\x08', rest)
  | 't' :: rest => some ('\t', rest)
  | 'n' :: rest => some ('\n', rest)
  | 'f' :: rest => some ('\x0c', rest)
  | 'r' :: rest => some ('\r', rest)
  | '"' :: rest => some ('"', rest)
  | '\\' :: rest => some ('\\', rest)
  | 'u' :: rest => codePoint? 4 rest
  | 'U' :: rest => codePoint? 8 rest
  | _ => none

/-- What a string may hold as it stands; quotes and backslashes are looked at
before this. -/
def isStringChar (c : Char) : Bool := isCommentChar c

/-- A string on one line up to its closing quote. -/
def basic? (t : Text) : Option (Text × Text) :=
  match t with
  | [] => none
  | '"' :: rest => some ([], rest)
  | '\\' :: rest =>
    match escape? rest with
    | some (c, after) =>
      if _h : after.length ≤ rest.length then
        (basic? after).map fun (s, after) => (c :: s, after)
      else none
    | none => none
  | c :: rest =>
    if isStringChar c then (basic? rest).map fun (s, after) => (c :: s, after) else none
termination_by t.length

/-- A string on one line without escapes, up to its closing quote. -/
def literal? : Text → Option (Text × Text)
  | [] => none
  | c :: rest =>
    if c = '\'' then some ([], rest)
    else if isStringChar c then (literal? rest).map fun (s, after) => (c :: s, after)
    else none

/-- What closes a string of several lines: three marks, and up to two before
them that belong to the string. -/
def closingMarks? (mark : Char) (t : Text) : Option (Text × Text) :=
  let count := (t.takeWhile (· == mark)).length
  if count < 3 then none
  else some (List.replicate (min (count - 3) 2) mark, t.drop (min count 5))

/-- A string of several lines, up to its closing marks. Only with `escapes` is
the backslash special; then one at the end of a line takes away all white space
behind it. A newline is always a single character. -/
def multiLine? (escapes : Bool) (mark : Char) (t : Text) : Option (Text × Text) :=
  match closingMarks? mark t with
  | some found => some found
  | none =>
    match t with
    | [] => none
    | c :: rest =>
      if escapes && c == '\\' then
        match newline? (skipBlanks rest), escape? rest with
        | some after, _ =>
          if _h : (skipGaps false false after).length ≤ rest.length then
            multiLine? escapes mark (skipGaps false false after)
          else none
        | none, some (c, after) =>
          if _h : after.length ≤ rest.length then
            (multiLine? escapes mark after).map fun (s, after) => (c :: s, after)
          else none
        | none, none => none
      else if c == '\r' && rest.head? == some '\n' then multiLine? escapes mark rest
      else if c == '\n' || isStringChar c then
        (multiLine? escapes mark rest).map fun (s, after) => (c :: s, after)
      else none
termination_by t.length

/-- What follows a newline at the front, if there is one. -/
def dropNewline (t : Text) : Text := (newline? t).getD t

/-- A string of any kind. -/
def string? : Text → Option (Text × Text)
  | '"' :: '"' :: '"' :: rest => multiLine? true '"' (dropNewline rest)
  | '"' :: rest => basic? rest
  | '\'' :: '\'' :: '\'' :: rest => multiLine? false '\'' (dropNewline rest)
  | '\'' :: rest => literal? rest
  | _ => none

/-! ## Keys -/

def isBareKeyChar (c : Char) : Bool := c.isAlphanum || c == '_' || c == '-'

/-- One part of a key: bare, or a string on one line. -/
def keyPart? : Text → Option (Text × Text)
  | '"' :: rest => basic? rest
  | '\'' :: rest => literal? rest
  | t =>
    match t.takeWhile isBareKeyChar with
    | [] => none
    | name => some (name, t.dropWhile isBareKeyChar)

/-- The parts of a key, points between them, and what follows it and the blanks
behind it. -/
def keyParts? (t : Text) : Option (List Text × Text) :=
  match keyPart? (skipBlanks t) with
  | none => none
  | some (name, rest) =>
    match skipBlanks rest with
    | '.' :: more =>
      if _h : more.length < t.length then
        (keyParts? more).map fun (names, after) => (name :: names, after)
      else none
    | after => some ([name], after)
termination_by t.length

/-- How deep keys, lists and tables may be nested. -/
def depthLimit : Nat := 80

/-- A key, which has a last part and those before it. -/
def key? (t : Text) : Option ((List Text × Text) × Text) :=
  match keyParts? t with
  | some (names, after) =>
    match names.getLast? with
    | some last => if names.length < depthLimit then some ((names.dropLast, last), after) else none
    | none => none
  | none => none

end Toml

end Offside
