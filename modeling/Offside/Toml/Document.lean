import Offside.Toml.Scalar
import Offside.Toml.Tree

/-!
# TOML: documents

A document is a list of lines: headers, which say where what follows belongs,
and keys with their values; a byte order mark may come first. `parse?` gives the
table that a document describes.
-/
namespace Offside

namespace Toml

/-- The elements of a list up to its closing bracket, each read by `item`; a
comma may follow the last. -/
def elements? (item : Text → Option (Value × Text)) (t : Text) : Option (List Value × Text) :=
  match skipGaps true false t with
  | ']' :: rest => some ([], rest)
  | first =>
    match item first with
    | none => none
    | some (v, rest) =>
      match skipGaps true false rest with
      | ']' :: after => some ([v], after)
      | ',' :: after =>
        if _h : after.length < t.length then
          (elements? item after).map fun (vs, after) => (v :: vs, after)
        else none
      | _ => none
termination_by t.length

/-- A key and its value; only blanks may stand around the sign between them. -/
def pair? (item : Text → Option (Value × Text)) (t : Text) :
    Option ((List Text × Text) × Value × Text) :=
  match key? t with
  | some (key, '=' :: rest) => (item (skipBlanks rest)).map fun (v, after) => (key, v, after)
  | _ => none

/-- The keys and values of a table within a line, up to its closing brace, put
into the table one by one. -/
def pairs? (item : Text → Option (Value × Text)) (es : Entries) (t : Text) :
    Option (Entries × Text) :=
  match pair? item t with
  | none => none
  | some ((path, name), v, rest) =>
    match Entries.add? path name v es with
    | none => none
    | some es =>
      match skipBlanks rest with
      | '\x7d' :: after => some (es, after)
      | ',' :: after => if _h : after.length < t.length then pairs? item es after else none
      | _ => none
termination_by t.length

/-- A table within a line, behind its opening brace. -/
def inlineTable? (item : Text → Option (Value × Text)) (t : Text) : Option (Value × Text) :=
  match skipBlanks t with
  | '\x7d' :: rest => some (.table [], rest)
  | _ => (pairs? item [] t).map fun (es, after) => (.table (entriesToValues es), after)

/-- A value in which lists and tables are nested at most so deep. -/
def value? : Nat → Text → Option (Value × Text)
  | depth + 1, '[' :: rest =>
    (elements? (value? depth) rest).map fun (vs, after) => (.list vs, after)
  | depth + 1, '\x7b' :: rest => inlineTable? (value? depth) rest
  | _, t => scalar? t

/-- Reads lines to the end of a document. What a line adds goes into the table
that the last header opened, at `path`. -/
def lines? (path : List Text) (es : Entries) (t : Text) : Option Entries :=
  match skipBlanks t with
  | [] => some es
  | start =>
    let next : Option (List Text × Entries × Text) :=
      match start with
      | '#' :: _ | '\n' :: _ | '\r' :: _ => some (path, es, start)
      | '[' :: '[' :: rest =>
        match key? rest with
        | some ((outer, name), ']' :: ']' :: after) =>
          (Entries.append? outer name es).map (outer ++ [name], ·, after)
        | _ => none
      | '[' :: rest =>
        match key? rest with
        | some ((outer, name), ']' :: after) =>
          (Entries.open? outer name es).map (outer ++ [name], ·, after)
        | _ => none
      | _ =>
        match pair? (value? (depthLimit - 1)) start with
        | some ((dotted, name), v, after) =>
          (Entries.modify? false (fun _ es => Entries.add? dotted name v es) path .header es).map
            (path, ·, after)
        | none => none
    match next with
    | none => none
    | some (path, es, rest) =>
      match lineEnd? rest with
      | none => none
      | some after => if _h : after.length < t.length then lines? path es after else none
termination_by t.length

/-- Takes a byte order mark off the front. -/
def dropMark : Text → Text
  | '\ufeff' :: t => t
  | t => t

/-- The table that a document describes. A document cannot be a date or a time
itself. -/
def parse? (t : Text) : Option (List (Text × Value)) :=
  match lines? [] [] (dropMark t) with
  | none => none
  | some es =>
    match settle? (.table (entriesToValues es)) with
    | some (.table es) => some es
    | _ => none

end Toml

end Offside
