import Mathlib
import Quoin.Num.Decimal
import Quoin.Trans.Traverse

/-!
# Quoin — pretty-printed values

`pp` walks a value into a document, and lays the document out within a width: a
group stands on one line where it fits, and has its parts on lines of their own
where it does not. A value is a graph in the heap and can contain itself; an object
on the way to itself is left out. The spans of a document have roles, which say how
to colour them.
-/

namespace Quoin.Pretty

open Trans

/-! ## Colours -/

inductive HighlightType where
  | none
  | errorStatement
  | methodReturnStatement
  | blockReturnStatement
  | numberLiteral
  | stringLiteral
  | symbolLiteral
  | regexLiteral
  | identifier
  | instanceIdentifier
  | blockBrace
  | collectionBrace
  | operator
  | comment
  | methodSignature
  | global
  | «namespace»
  | keyword
  | path

/-- `colors_for`. -/
def colorsFor : HighlightType → List String
  | .none => ["#ffffff"]
  | .errorStatement => ["#d9534f;bw"]
  | .methodReturnStatement => ["#ffffff"]
  | .blockReturnStatement => ["#ffffff"]
  | .numberLiteral => ["#00bfff"]
  | .stringLiteral => ["#4682b4"]
  | .symbolLiteral => ["#4682b4"]
  | .regexLiteral => ["#4682b4"]
  | .identifier => ["#5fd7af", "#aeb1ab", "#c79ca9", "#85b9a5"]
  | .instanceIdentifier => ["#6ab1c2"]
  | .blockBrace => ["#f79c88", "#80f0ff", "#fa859d", "#eabe95", "#a4dbbe"]
  | .collectionBrace => ["#93c6a5"]
  | .operator => ["#ffffff"]
  | .comment => ["#b9bdba;lw"]
  | .methodSignature => ["#ab82ff"]
  | .global => ["#ef65a5"]
  | .namespace => ["#d53b82"]
  | .keyword => ["#e0a45a;bw"]
  | .path => ["#6aa9e0"]

def hexDigit? (c : Char) : Option Nat :=
  if '0' ≤ c ∧ c ≤ '9' then some (c.toNat - '0'.toNat)
  else if 'A' ≤ c ∧ c ≤ 'F' then some (c.toNat - 'A'.toNat + 10)
  else if 'a' ≤ c ∧ c ≤ 'f' then some (c.toNat - 'a'.toNat + 10)
  else none

def decimal (n : Nat) : List Char := (Num.natDigits n).map Num.digitChar

/-- The colour that a text begins with. -/
def hexColor : List Char → Option (List Char)
  | '#' :: a :: b :: c :: d :: e :: f :: _ => do
    let r := 16 * (← hexDigit? a) + (← hexDigit? b)
    let g := 16 * (← hexDigit? c) + (← hexDigit? d)
    let b := 16 * (← hexDigit? e) + (← hexDigit? f)
    return "38;2;".toList ++ decimal r ++ [';'] ++ decimal g ++ [';'] ++ decimal b
  | _ => none

/-- `hex_color_to_ansi`: the first colour anywhere in the text. -/
def hexColorToAnsi (s : List Char) : List Char := (s.tails.findSome? hexColor).getD []

/-- The code of an attribute. -/
def attributeCode (part : List Char) : List Char :=
  match String.ofList part with
  | "bw" => ";1".toList
  | "lw" => ";2".toList
  | "nw" => ";22".toList
  | "i" => ";3".toList
  | "_" => ";4".toList
  | "=" => ";21".toList
  | "-" => ";9".toList
  | "b0" => ";25".toList
  | "b1" => ";5".toList
  | "b9" => ";6".toList
  | "!" => ";7".toList
  | _ => []

def ANSI_START : List Char := ['\x1b', '[']

/-- `parse_attribute`, for a specification without blanks. -/
def sgr (spec : String) : List Char :=
  ANSI_START ++ ((spec.toList.splitOn ';').filter (!·.isEmpty)).flatMap (fun part =>
    if part.head? = some '#' then hexColorToAnsi part else attributeCode part) ++ ['m']

def SGR_RESET : List Char := "\x1b[0;00;22;39;49m".toList

inductive Role where
  | delim
  | className
  | reserved
  | ivar
  | selector
  | number
  | str
  | symbol
  | regex

namespace Role

def highlight : Role → HighlightType
  | delim => .collectionBrace
  | className | reserved => .global
  | ivar => .instanceIdentifier
  | selector => .methodSignature
  | number => .numberLiteral
  | str => .stringLiteral
  | symbol => .symbolLiteral
  | regex => .regexLiteral

/-- `Role::sgr`. -/
def start (r : Role) : List Char := sgr ((colorsFor r.highlight).headD "")

end Role

/-! ## Documents -/

inductive Doc where
  | text (s : List Char)
  | line
  | soft
  | cat (ds : List Doc)
  | nest (n : Nat) (d : Doc)
  | group (d : Doc)
  | styled (role : Role) (d : Doc)

inductive Mode where
  | flat
  | break
  deriving DecidableEq

mutual

/-- How many constructors a document has. -/
def Doc.size : Doc → Nat
  | .text _ | .line | .soft => 1
  | .cat ds => sizes ds + 1
  | .nest _ d => d.size + 1
  | .group d => d.size + 1
  | .styled _ d => d.size + 1

def sizes : List Doc → Nat
  | [] => 0
  | d :: ds => d.size + sizes ds

end

/-- What is to be laid out: an indentation, a mode and a document. -/
abbrev Item := Nat × Mode × Doc

/-- The parts of a document, to be laid out alike. -/
def itemsOf (indent : Nat) (mode : Mode) (ds : List Doc) : List Item :=
  ds.map fun d => (indent, mode, d)

def weight (stack : List Item) : Nat := (stack.map fun x => x.2.2.size).sum

@[simp] theorem weight_cons (x : Item) (stack : List Item) :
    weight (x :: stack) = x.2.2.size + weight stack := by
  simp [weight]

@[simp] theorem weight_append (xs stack : List Item) :
    weight (xs ++ stack) = weight xs + weight stack := by
  simp [weight]

@[simp] theorem weight_itemsOf (indent : Nat) (mode : Mode) (ds : List Doc) :
    weight (itemsOf indent mode ds) = sizes ds := by
  induction ds with
  | nil => rfl
  | cons d ds ih =>
    rw [itemsOf] at ih ⊢
    rw [List.map_cons, weight_cons, ih, sizes]

/-- `fits`; the stack has its top first. -/
def fits (remaining : Int) (stack : List Item) : Bool :=
  if remaining < 0 then false else
  match stack with
  | [] => true
  | (indent, mode, doc) :: stack =>
    match doc with
    | .text s => fits (remaining - s.length) stack
    | .line => if mode = .flat then fits (remaining - 1) stack else true
    | .soft => if mode = .break then true else fits remaining stack
    | .cat ds => fits remaining (itemsOf indent mode ds ++ stack)
    | .nest n d => fits remaining ((indent + n, mode, d) :: stack)
    | .group d => fits remaining ((indent, .flat, d) :: stack)
    | .styled _ d => fits remaining ((indent, mode, d) :: stack)
termination_by weight stack
decreasing_by
  all_goals simp only [weight_append, weight_cons, weight_itemsOf, Doc.size]
  all_goals omega

/-- A work item: a document, or an escape to write as it is. -/
inductive Step where
  | doc (indent : Nat) (mode : Mode) (d : Doc)
  | emit (s : List Char)

/-- The parts of a document, to be laid out alike. -/
def stepsOf (indent : Nat) (mode : Mode) (ds : List Doc) : List Step :=
  ds.map fun d => .doc indent mode d

def Step.weight : Step → Nat
  | doc _ _ d => 3 * d.size
  | emit _ => 1

def pending (stack : List Step) : Nat := (stack.map Step.weight).sum

@[simp] theorem pending_cons (x : Step) (stack : List Step) :
    pending (x :: stack) = x.weight + pending stack := by
  simp [pending]

@[simp] theorem pending_append (xs stack : List Step) :
    pending (xs ++ stack) = pending xs + pending stack := by
  simp [pending]

@[simp] theorem pending_stepsOf (indent : Nat) (mode : Mode) (ds : List Doc) :
    pending (stepsOf indent mode ds) = 3 * sizes ds := by
  induction ds with
  | nil => rfl
  | cons d ds ih =>
    rw [stepsOf] at ih ⊢
    rw [List.map_cons, pending_cons, ih, sizes, Step.weight, Nat.mul_add]

/-- `x as isize`, on 64 bits. -/
def isize (x : Int) : Int := x.bmod (2 ^ 64)

/-- The mode in which a group is laid out. -/
def modeOf (width col indent : Nat) (d : Doc) : Mode :=
  if fits (isize (isize width - isize col)) [(indent, .flat, d)] then .flat else .break

/-- The loop of `best`: what it writes from the column `col` on. -/
def layOut (width : Nat) (colorize : Bool) (col : Nat) (stack : List Step) : List Char :=
  match stack with
  | [] => []
  | .emit s :: stack => s ++ layOut width colorize col stack
  | .doc indent mode doc :: stack =>
    match doc with
    | .text s => s ++ layOut width colorize (col + s.length) stack
    | .line =>
      if mode = .flat then ' ' :: layOut width colorize (col + 1) stack
      else '\n' :: (List.replicate indent ' ' ++ layOut width colorize indent stack)
    | .soft =>
      if mode = .flat then layOut width colorize col stack
      else '\n' :: (List.replicate indent ' ' ++ layOut width colorize indent stack)
    | .cat ds => layOut width colorize col (stepsOf indent mode ds ++ stack)
    | .nest n d => layOut width colorize col (.doc (indent + n) mode d :: stack)
    | .group d => layOut width colorize col (.doc indent (modeOf width col indent d) d :: stack)
    | .styled role d =>
      if colorize then
        layOut width colorize col
          (.emit role.start :: .doc indent mode d :: .emit SGR_RESET :: stack)
      else layOut width colorize col (.doc indent mode d :: stack)
termination_by pending stack
decreasing_by
  all_goals simp only [pending_append, pending_cons, pending_stepsOf, Step.weight, Doc.size]
  all_goals omega

def best (width : Nat) (doc : Doc) (colorize : Bool) : List Char :=
  layOut width colorize 0 [.doc 0 .break doc]

/-- Between two items stands a line. -/
def spread : List Doc → List Doc
  | [] => []
  | [d] => [d]
  | d :: ds => d :: .line :: spread ds

/-- The name of the class before the opening delimiter, if it is to stand there. -/
def opener (name opening : List Char) : Doc :=
  if name.isEmpty then .styled .delim (.text opening)
  else .cat [.styled .className (.text name), .styled .delim (.text opening)]

def bracket (name opening closing : List Char) (items : List Doc) : Doc :=
  let closer := Doc.styled .delim (.text closing)
  if items.isEmpty then .cat [opener name opening, closer]
  else .group (.cat [opener name opening, .nest 2 (.cat [.soft, .cat (spread items)]), .soft,
    closer])

/-! ## Values -/

inductive Value where
  | int (i : Int64)
  /-- A double, with its text. -/
  | double (text : List Char)
  | bool (b : Bool)
  | nil
  | classOf (name : List Char)
  | classMeta (name : List Char)
  | object (p : Nat)
  deriving DecidableEq

/-- A field of a record: a value, or a text that the native state has made. -/
inductive PpChild where
  | val (v : Value)
  | string (s : List Char)
  | number (s : List Char)

inductive Payload where
  | string (s : List Char)
  | symbol (s : List Char)
  | bytes (bs : List UInt8)
  | block (name : Option (List Char))
  | inst (className : List Char) (ivars : List (List Char × Value))
  | list (items : List Value)
  | set (items : List Value)
  | map (entries : List (Value × Value))
  /-- A native state that shows fields. -/
  | record (name : List Char) (fields : List (List Char × PpChild))
  | regex (pattern : List Char)
  | method (signatures : List (List Char))
  | native (className : List Char)

namespace Payload

def className : Payload → List Char
  | string _ => "String".toList
  | symbol _ => "Symbol".toList
  | bytes _ => "Bytes".toList
  | block _ => "Block".toList
  | inst name _ => name
  | list _ => "List".toList
  | set _ => "Set".toList
  | map _ => "Map".toList
  | record name _ => name
  | regex _ => "Regex".toList
  | method _ => "Method".toList
  | native name => name

def string? : Payload → Option (List Char)
  | string s => some s
  | _ => none

end Payload

/-- What makes two values one element of a set or one key of a map: the same scalar, the same
characters or the same object. -/
def Same (payload : Nat → Payload) : Value → Value → Prop
  | .object p, .object q =>
    p = q ∨ ∃ s, (payload p).string? = some s ∧ (payload q).string? = some s
  | v, w => v = w

/-- The objects below `next` are allocated. A set has an element once, and a map a key. -/
structure Heap where
  payload : Nat → Payload
  next : Nat
  set_distinct : ∀ p items, payload p = .set items → items.Pairwise fun v w => ¬Same payload v w
  map_distinct : ∀ p entries, payload p = .map entries →
    entries.Pairwise fun e f => ¬Same payload e.1 f.1

/-! ## The walk -/

def quoteChar (c : Char) : List Char :=
  match c with
  | '\'' => ['\\', '\'']
  | '\\' => ['\\', '\\']
  | '\n' => ['\\', 'n']
  | '\t' => ['\\', 't']
  | '\r' => ['\\', 'r']
  | c => [c]

def quote (s : List Char) : List Char := '\'' :: (s.flatMap quoteChar ++ ['\''])

/-- `i.to_string()`. -/
def showInt (i : Int) : List Char := (Num.NumberText.ofInt i).chars

def hexByte (b : UInt8) : List Char :=
  [Nat.digitChar (b.toNat / 16), Nat.digitChar (b.toNat % 16)]

/-- `bytes_repr`, of the first sixteen bytes. -/
def bytesRepr (bs : List UInt8) : List Char :=
  "Bytes[".toList ++ decimal bs.length ++ [']'] ++
    (bs.take 16).flatMap (fun b => ' ' :: hexByte b) ++
    if 16 < bs.length then " …".toList else []

def word (s : String) : Doc := .text s.toList

/-- The parts of a method's text, with a bar between its signatures. -/
def signatureDocs : List (List Char) → List Doc
  | [] => []
  | [s] => [.styled .selector (.text s)]
  | s :: rest => .styled .selector (.text s) :: word " | " :: signatureDocs rest

/-- `method_doc`. -/
def methodDoc (signatures : List (List Char)) : Doc :=
  if signatures.isEmpty then word "<Method>" else
  .cat (.styled .className (word "Method") :: .styled .delim (word "(") ::
    (signatureDocs signatures ++ [.styled .delim (word ")")]))

section

variable (h : Heap)

/-- The string that a value is, if it is one. -/
def stringOf : Value → Option (List Char)
  | .object p => (h.payload p).string?
  | _ => none

/-- An entry of a map. A key that is a string is quoted; of another one `key` is the text. -/
def entryDoc (sub : Value → Option Doc) (key : Value → Option (List Char)) (e : Value × Value) :
    Option Doc := do
  let label ← match stringOf h e.1 with
    | some s => some (quote s)
    | none => key e.1
  return .cat [.text label, word ": ", ← sub e.2]

/-- `child_to_doc`. -/
def childDoc (sub : Value → Option Doc) : PpChild → Option Doc
  | .val v => sub v
  | .string s => some (.styled .str (.text (quote s)))
  | .number s => some (.styled .number (.text s))

/-- `object_doc` and `native_doc`: `sub` is the document of a value within this one, and `key` the
text of a key that is no string. -/
def objectDoc (sub : Value → Option Doc) (key : Value → Option (List Char)) :
    Payload → Option Doc
  | .string s => some (.styled .str (.text (quote s)))
  | .symbol s => some (.styled .symbol (.text ('#' :: s)))
  | .bytes bs => some (.text (bytesRepr bs))
  | .block (some name) => some (.text ("<block ".toList ++ name ++ ['>']))
  | .block none => some (word "<block>")
  | .inst name ivars => do
    let docs ← ivars.mapM fun f => do
      return Doc.cat [.styled .ivar (.text ('@' :: f.1)), word ": ", ← sub f.2]
    return bracket name ['\x7b'] ['\x7d'] docs
  | .list items => return bracket [] "#(".toList [')'] (← items.mapM sub)
  | .set items => return bracket [] "#<".toList ['>'] (← items.mapM sub)
  | .map entries =>
    return bracket [] "#\x7b".toList ['\x7d'] (← entries.mapM (entryDoc h sub key))
  | .record name fields => do
    let docs ← fields.mapM fun f => do
      return Doc.cat [.text (f.1 ++ ": ".toList), ← childDoc sub f.2]
    return bracket name ['\x7b'] ['\x7d'] docs
  | .regex pattern => some (.styled .regex (.text ("#/".toList ++ pattern ++ ['/'])))
  | .method signatures => some (methodDoc signatures)
  | .native name => some (.text ('<' :: (name ++ ['>'])))

/-- `usize::MAX`. -/
def MAX_WIDTH : Nat := 2 ^ 64 - 1

/-- `value_to_doc`, `none` where it goes deeper than `depth`: the walk of a key that is no string
starts afresh, and need not end. -/
def valueToDoc : Nat → List Nat → Value → Option Doc
  | 0, _, _ => none
  | depth + 1, visited, v =>
    match v with
    | .int i => some (.styled .number (.text (showInt i.toInt)))
    | .double s => some (.styled .number (.text s))
    | .bool b => some (.styled .reserved (word (if b then "true" else "false")))
    | .nil => some (.styled .reserved (word "nil"))
    | .classOf name => some (.cat [word "class ", .styled .className (.text name)])
    | .classMeta name =>
      some (.cat [word "class ", .styled .className (.text name), word " meta"])
    | .object p =>
      if p ∈ visited then
        some (.text ((h.payload p).className ++ ['\x7b'] ++ "…".toList ++ ['\x7d']))
      else
        objectDoc h (fun w => valueToDoc depth (p :: visited) w)
          (fun k => (valueToDoc depth [] k).map fun d => best MAX_WIDTH d false) (h.payload p)

/-- `render`. -/
def render (depth : Nat) (v : Value) (width : Nat) (colorize : Bool) : Option (List Char) :=
  (valueToDoc h depth [] v).map fun d => best width d colorize

end

end Quoin.Pretty
