import ByteLexer.Stream.Call

/-! # The content of a stream

The items that a stream would give if it were taken empty at once, and what calls on the stream come
to if it is seen as the list of these items. -/
namespace ByteLexer

def Supply.toList {σ α : Type} [Supply σ α] (s : σ) : List α :=
  match _h : (Supply.draw s : Option α × σ) with
  | (none, _) => []
  | (some a, s') => a :: toList s'
termination_by Supply.size α s
decreasing_by exact Supply.size_draw_lt ‹_›

/-- The items that a stream holds, and after them those of its feed. -/
def Network.content {σ α : Type} [Supply σ α] (n : Network σ α) (i : Nat) : List α :=
  match n.streams[i]? with
  | none => []
  | some ⟨pending, .items left⟩ => pending ++ left
  | some ⟨pending, .supply ended⟩ => pending ++ if ended then [] else Supply.toList n.supply
  | some ⟨pending, .stream j⟩ => pending ++ if j < i then n.content j else []
termination_by i

namespace Network
variable {σ α β : Type}

/-- What a call answers on a plain list and what it leaves of it. A stream that the call opens gets
the index `opened`. -/
def Call.onList [BEq α] (opened : Nat) (l : List α) : Call α β → Reply α β × List α
  | .peek _ fallback =>
    (match l.head?, fallback with
      | some a, _ => .item a
      | none, some given => .fallback given
      | none, none => .exhausted, l)
  | .next _ => (.ofItem? l.head?, l.tail)
  | .prepend _ items => (.done, items ++ l)
  | .nonempty _ => (.truth !l.isEmpty, l)
  | .takeAll _ => (.items l, [])
  | .contains _ item => (.truth (l.any (· == item)), (l.dropWhile (· != item)).tail)
  | .wrap _ => (.opened opened, l)

/-- The items that a reply hands to the caller. A look at an item hands nothing out. -/
def Call.handedOut : Call α β → Reply α β → List α
  | .next _, .item a => [a]
  | .takeAll _, .items found => found
  | _, _ => []

/-- The items of a plain list that a search goes past, the one that it finds with them. -/
def Call.passed [BEq α] (l : List α) : Call α β → List α
  | .contains _ item => l.take ((l.takeWhile (· != item)).length + 1)
  | _ => []

def Call.prepended (streams : Nat) : Call α β → List α
  | .prepend i items => if i < streams then items else []
  | _ => []

def Call.need [BEq α] (l : List α) : Call α β → Nat
  | .peek _ _ | .next _ | .nonempty _ => 1
  | .takeAll _ => l.length + 1
  | .contains _ item => (l.takeWhile (· != item)).length + 1
  | .prepend _ _ | .wrap _ => 0

def Wraps (n : Network σ α) (i j : Nat) : Prop :=
  ∃ pending, n.streams[i]? = some ⟨pending, .stream j⟩

inductive DrawsOn (n : Network σ α) : Nat → Nat → Prop where
  | wraps {i j : Nat} (h : n.Wraps i j) : DrawsOn n i j
  | through {i j k : Nat} (h : n.Wraps i j) (hmore : DrawsOn n j k) : DrawsOn n i k

/-- The networks that come about when streams are opened, on lists, on the supply or on earlier
streams, and calls are made on them. -/
inductive Reachable [Supply σ α] [BEq α] : Network σ α → Prop where
  | start (supply : σ) : Reachable (.ofSupply supply)
  | attach {n : Network σ α} (feed : Feed α) (h : n.Reachable)
      (hfeed : ∀ j, feed = .stream j → j < n.streams.length) : Reachable (n.attach feed).2
  | perform {n : Network σ α} {β : Type} (call : Call α β) (h : n.Reachable)
      (hcall : call.stream < n.streams.length) : Reachable (n.perform call).2

end Network
end ByteLexer
