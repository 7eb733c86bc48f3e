import HashStore.Event

/-! # Replies and factories

A store is a value, and its surroundings are another: an operation takes both and hands both back in
a `Reply`, with its answer and the events it reported.  A `Factory` makes the buckets of a store, all
alike. -/

namespace HashStore

/-- What an operation on a store `S` in surroundings `σ` hands back. -/
structure Reply (α S σ : Type) where
  answer : α
  state : S
  env : σ
  events : List Event

/-- The reply with its answer put into another form. -/
def Reply.map {α γ S σ : Type} (f : α → γ) (r : Reply α S σ) : Reply γ S σ :=
  ⟨f r.answer, r.state, r.env, r.events⟩

/-- How something is made over and over: the product, and the events that making one reports. -/
structure Factory (β : Type) where
  fresh : β
  notes : List Event

namespace Factory

variable {β : Type} (factory : Factory β)

/-- An array of `n` fresh products. -/
def products (n : Nat) : Array β := Array.replicate n factory.fresh

/-- The events reported while making `n` products. -/
def notesOf (n : Nat) : List Event := (List.replicate n factory.notes).flatten

end Factory

end HashStore
