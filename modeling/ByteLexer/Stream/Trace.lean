import ByteLexer.Stream.Content

/-! # Traced networks

The supply of a network may be drawn from directly and through any number of streams. A traced
network also keeps what its supply gave so far and marks each item with its origin; without that it
is an ordinary network. -/
namespace ByteLexer

def Supply.drain {σ α : Type} [Supply σ α] (s : σ) : List α × σ :=
  match _h : (Supply.draw s : Option α × σ) with
  | (none, s') => ([], s')
  | (some a, s') =>
    let more := drain s'
    (a :: more.1, more.2)
termination_by Supply.size α s
decreasing_by exact Supply.size_draw_lt ‹_›

namespace Network

def single {σ α : Type} (supply : σ) : Network σ α := ((ofSupply supply).attach (.supply false)).2

/-- What can be done with a supply and the streams on it. Draining takes its items up to the next
`none`. -/
inductive Use (α β : Type) where
  | draw
  | drain
  | attach
  | stream (call : Call α β)

section
variable {σ α β : Type} [Supply σ α] [BEq α]

def use (n : Network σ α) : Use α β → Reply α β × Network σ α
  | .draw => (Supply.draw n.supply).map .ofItem? ({ n with supply := · })
  | .drain => (Supply.drain n.supply).map .items ({ n with supply := · })
  | .attach => (n.attach (.supply false)).map .opened id
  | .stream call => n.perform call

def useAll (n : Network σ α) : List (Use α β) → List (Reply α β) × Network σ α
  | [] => ([], n)
  | u :: uses =>
    let first := n.use u
    let more := first.2.useAll uses
    (first.1 :: more.1, more.2)

def Use.handedOut : Use α β → Reply α β → List α
  | .draw, .item a => [a]
  | .drain, .items found => found
  | .stream call, reply => call.handedOut reply
  | _, _ => []

def passed (n : Network σ α) : Use α β → List α
  | .stream call => call.passed (n.content call.stream)
  | _ => []

def prepended (n : Network σ α) : Use α β → List α
  | .stream call => call.prepended n.streams.length
  | _ => []

/-- The items that a use takes: those in its reply and those that a search goes past. -/
def taken (n : Network σ α) (u : Use α β) : List α := u.handedOut (n.use u).1 ++ n.passed u

/-- What each of several uses comes to, one after the other. -/
def along (items : Network σ α → Use α β → List α) (n : Network σ α) : List (Use α β) → List α
  | [] => []
  | u :: uses => items n u ++ along items (n.use u).2 uses

def pending (n : Network σ α) : List α := n.streams.flatMap (·.pending)

end
end Network

/-- An item that the supply gave, or that a caller put in front of a stream. -/
inductive Traced (α : Type) where
  | drawn (item : α)
  | given (item : α)

namespace Traced
variable {α : Type}

def item : Traced α → α
  | drawn a | given a => a

def drawn? : Traced α → Option α
  | drawn a => some a
  | given _ => none

instance [BEq α] : BEq (Traced α) := ⟨fun a b => a.item == b.item⟩

end Traced

/-- A supply with what it gave so far. -/
structure Recorder (σ α : Type) where
  supply : σ
  record : List (Option α)

instance {σ α : Type} [Supply σ α] : Supply (Recorder σ α) (Traced α) where
  draw r :=
    let found : Option α × σ := Supply.draw r.supply
    (found.1.map .drawn, ⟨found.2, r.record ++ [found.1]⟩)
  size r := Supply.size α r.supply
  size_draw_lt h := by
    obtain ⟨hfound, rfl⟩ := Prod.mk.inj h
    obtain ⟨b, hb, _⟩ := Option.map_eq_some_iff.mp hfound
    exact Supply.size_draw_lt (Prod.ext hb rfl)

def Feed.map {α β : Type} (f : α → β) : Feed α → Feed β
  | .items left => .items (left.map f)
  | .supply ended => .supply ended
  | .stream j => .stream j

def Lookahead.map {α β : Type} (f : α → β) (s : Lookahead α) : Lookahead β :=
  ⟨s.pending.map f, s.feed.map f⟩

namespace Network

def Call.map {α α' β : Type} (f : α → α') : Call α β → Call α' β
  | .peek i fallback => .peek i fallback
  | .next i => .next i
  | .prepend i items => .prepend i (items.map f)
  | .nonempty i => .nonempty i
  | .takeAll i => .takeAll i
  | .contains i item => .contains i (f item)
  | .wrap i => .wrap i

def Reply.map {α α' β : Type} (f : α → α') : Reply α β → Reply α' β
  | .item a => .item (f a)
  | .fallback given => .fallback given
  | .exhausted => .exhausted
  | .items found => .items (found.map f)
  | .truth holds => .truth holds
  | .opened i => .opened i
  | .done => .done

def Use.map {α α' β : Type} (f : α → α') : Use α β → Use α' β
  | .draw => .draw
  | .drain => .drain
  | .attach => .attach
  | .stream call => .stream (call.map f)

def forget {σ α : Type} (n : Network (Recorder σ α) (Traced α)) : Network σ α :=
  ⟨n.supply.supply, n.streams.map (·.map Traced.item)⟩

end Network
end ByteLexer
