import ByteLexer.Stream.Network

/-! # Calls on streams

The operations on the streams of a network as data. -/
namespace ByteLexer.Network

/-- A call on a stream of items `α`. A peek may bring a fallback for a stream with no items. -/
inductive Call (α β : Type) where
  | peek (stream : Nat) (fallback : Option β)
  | next (stream : Nat)
  | prepend (stream : Nat) (items : List α)
  | nonempty (stream : Nat)
  | takeAll (stream : Nat)
  | contains (stream : Nat) (item : α)
  | wrap (stream : Nat)

inductive Reply (α β : Type) where
  | item (found : α)
  | fallback (given : β)
  | exhausted
  | items (found : List α)
  | truth (holds : Bool)
  | opened (stream : Nat)
  | done

def Call.stream {α β : Type} : Call α β → Nat
  | .peek i _ | .next i | .prepend i _ | .nonempty i | .takeAll i | .contains i _ | .wrap i => i

def Reply.ofItem? {α β : Type} : Option α → Reply α β
  | some a => .item a
  | none => .exhausted

variable {σ α β : Type} [Supply σ α] [BEq α]

/-- Makes one call. Asking whether an item is there takes items through the first equal one. -/
def perform (n : Network σ α) : Call α β → Reply α β × Network σ α
  | .peek i fallback =>
    (n.peek i).map (fun found => match found, fallback with
      | some a, _ => .item a
      | none, some given => .fallback given
      | none, none => .exhausted) id
  | .next i => (n.next i).map .ofItem? id
  | .prepend i items => (.done, n.prepend i items)
  | .nonempty i => (n.peek i).map (.truth ·.isSome) id
  | .takeAll i => (n.takeAll i).map .items id
  | .contains i item => (n.takeThrough (· == item) i).map (.truth <| ·.any (· == item)) id
  | .wrap i => (n.attach (.stream i)).map .opened id

end ByteLexer.Network
