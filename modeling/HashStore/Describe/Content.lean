import HashStore.Key
import HashStore.Value
import HashStore.Text.Doc
import HashStore.Text.Quoted

/-! # How keys and values are shown

Numbers and truth values are shown plainly, letters and texts quoted, sequences between brackets.
A key behind a reference is shown as what it refers to, and a key that wraps its content to change
the hash names that wrapper. -/

namespace HashStore

open Text

instance : Describe Int := ⟨fun n => .word (toString n)⟩

instance : Describe Nat := ⟨fun n => .word (toString n)⟩

instance : Describe UInt64 := ⟨fun n => .word (toString n)⟩

instance : Describe Int64 := ⟨fun n => .word (toString n)⟩

instance : Describe Bool := ⟨fun b => .word (if b then "true" else "false")⟩

instance : Describe Char := ⟨fun c => .word (quotedLetter c)⟩

instance : Describe String := ⟨fun s => .word (quoted s)⟩

section

variable {α : Type} [Describe α]

/-- Items between square brackets. -/
def describeList (items : List α) : Doc := .group .list (items.map Describe.doc)

instance : Describe (ByText α) :=
  ⟨fun key => .group (.wrapper "Rendered") [Describe.doc key.content]⟩

instance : Describe (ByBytes α) :=
  ⟨fun key => .group (.wrapper "Hashed") [Describe.doc key.content]⟩

end

instance : Describe UInt8 := ⟨fun b => .word (toString b)⟩

instance : Describe Fnv :=
  ⟨fun hasher => .group (.wrapper "Fnv1a") [Describe.doc hasher.state]⟩

instance : Describe Displayed where
  doc
    | .integer n => Describe.doc n
    | .natural n => Describe.doc n
    | .truth b => Describe.doc b
    | .letter c => Describe.doc c
    | .text s => Describe.doc s
    | .address dotted => .word dotted
    | .parts texts _ => describeList texts

namespace Datum

mutual

/-- How a structured content is shown. -/
def doc : Datum → Doc
  | integer _ _ value => Describe.doc value
  | truth b => Describe.doc b
  | letter c => Describe.doc c
  | text s => Describe.doc s
  | bytes content => describeList content
  | list items => .group .list (docs items)
  | tuple items => .group (.wrapper "") (docs items)
  | unit => .word "()"
  | absent => .word "None"
  | present content => .group (.wrapper "Some") [content.doc]
  | success content => .group (.wrapper "Ok") [content.doc]
  | failure content => .group (.wrapper "Err") [content.doc]

def docs : List Datum → List Doc
  | [] => []
  | item :: rest => item.doc :: docs rest

end

instance : Describe Datum := ⟨doc⟩

end Datum

namespace Key

def doc : Key → Doc
  | integer _ _ value => Describe.doc value
  | truth b => Describe.doc b
  | letter c => Describe.doc c
  | text _ s => Describe.doc s
  | bytes _ content => describeList content
  | behind _ target => target.doc
  | byText key => Describe.doc key
  | byBytes key => Describe.doc key
  | custom id hash =>
    Doc.record "Custom" [("id", Describe.doc id), ("hash", Describe.doc hash)] false

instance : Describe Key := ⟨doc⟩

end Key

namespace Value

mutual

def doc : Value → Doc
  | null => .word "()"
  | truth b => Describe.doc b
  | integer n => Describe.doc n
  | text s => Describe.doc s
  | list items => .group .list (docs items)

def docs : List Value → List Doc
  | [] => []
  | item :: rest => item.doc :: docs rest

end

instance : Describe Value := ⟨doc⟩

end Value

end HashStore
