/-! # Look-ahead streams

Streams that can look ahead and take items back. Each one feeds on a list, on a supply shared by all
streams, or on another stream, so they are kept together in a network and named by their index. -/
namespace ByteLexer

/-- Something that items are drawn from one by one. Items run out: `size` bounds how many are left
before the next `none`. -/
class Supply (σ : Type) (α : Type) where
  draw : σ → Option α × σ
  size : σ → Nat
  size_draw_lt : ∀ {s s' : σ} {a : α}, draw s = (some a, s') → size s' < size s

instance {α : Type} : Supply Unit α where
  draw s := (none, s)
  size _ := 0
  size_draw_lt h := by simp at h

/-- Where a stream gets its items from. Once the shared supply has given none, a stream that saw it
draws no more. -/
inductive Feed (α : Type) where
  | items (left : List α)
  | supply (ended : Bool)
  | stream (index : Nat)

/-- A stream: the items it already holds come before those of its feed. -/
structure Lookahead (α : Type) where
  pending : List α
  feed : Feed α

/-- Streams in the order of their opening, with the supply they share. -/
structure Network (σ α : Type) where
  supply : σ
  streams : List (Lookahead α)

namespace Network
variable {σ α : Type}

def ofSupply (supply : σ) : Network σ α := ⟨supply, []⟩

def attach (n : Network σ α) (feed : Feed α) : Nat × Network σ α :=
  (n.streams.length, { n with streams := n.streams ++ [⟨[], feed⟩] })

def set (n : Network σ α) (i : Nat) (s : Lookahead α) : Network σ α :=
  { n with streams := n.streams.set i s }

def prepend (n : Network σ α) (i : Nat) (items : List α) : Network σ α :=
  match n.streams[i]? with
  | some s => n.set i { s with pending := items ++ s.pending }
  | none => n

variable [Supply σ α]

/-- Takes the next item of a stream. A stream feeds only on streams opened before it. -/
def next (n : Network σ α) (i : Nat) : Option α × Network σ α :=
  match n.streams[i]? with
  | none => (none, n)
  | some ⟨a :: pending, feed⟩ => (some a, n.set i ⟨pending, feed⟩)
  | some ⟨[], .items []⟩ => (none, n)
  | some ⟨[], .items (a :: left)⟩ => (some a, n.set i ⟨[], .items left⟩)
  | some ⟨[], .supply true⟩ => (none, n)
  | some ⟨[], .supply false⟩ =>
    match Supply.draw n.supply with
    | (some a, supply) => (some a, { n with supply })
    | (none, supply) => (none, { n with supply }.set i ⟨[], .supply true⟩)
  | some ⟨[], .stream j⟩ => if j < i then n.next j else (none, n)
termination_by i

def peek (n : Network σ α) (i : Nat) : Option α × Network σ α :=
  match n.next i with
  | (some a, n') => (some a, n'.prepend i [a])
  | (none, n') => (none, n')

end Network

def Lookahead.weight {α : Type} (s : Lookahead α) : Nat :=
  s.pending.length + match s.feed with
    | .items left => left.length
    | .supply _ | .stream _ => 0

def Lookahead.totalWeight {α : Type} : List (Lookahead α) → Nat
  | [] => 0
  | s :: streams => s.weight + totalWeight streams

namespace Network
variable {σ α : Type} [Supply σ α]

/-- A bound on the items that all streams together can still give. -/
def weight (n : Network σ α) : Nat :=
  Supply.size α n.supply + Lookahead.totalWeight n.streams

private theorem totalWeight_set {streams : List (Lookahead α)} {i : Nat} {old : Lookahead α}
    (new : Lookahead α) (h : streams[i]? = some old) :
    Lookahead.totalWeight (streams.set i new) + old.weight =
      Lookahead.totalWeight streams + new.weight := by
  induction streams generalizing i with
  | nil => simp at h
  | cons s streams ih =>
    cases i with
    | zero =>
      obtain rfl : s = old := by simpa using h
      simp only [List.set_cons_zero, Lookahead.totalWeight]
      omega
    | succ i =>
      have hi := ih (by simpa using h : streams[i]? = some old)
      simp only [List.set_cons_succ, Lookahead.totalWeight]
      omega

private theorem weight_set_lt {n : Network σ α} {i : Nat} {old new : Lookahead α}
    (h : n.streams[i]? = some old) (hlt : new.weight < old.weight) :
    (n.set i new).weight < n.weight := by
  have hsum := totalWeight_set new h
  simp only [weight, set]
  omega

theorem weight_next_lt {n n' : Network σ α} {i : Nat} {a : α} (h : n.next i = (some a, n')) :
    n'.weight < n.weight := by
  -- A stream feeds only on earlier ones.
  induction i using Nat.strongRecOn generalizing n with
  | ind i ih =>
    rw [next] at h
    split at h
    · simp at h
    · rename_i hi
      obtain ⟨_, rfl⟩ := Prod.mk.inj h
      exact weight_set_lt hi (by simp [Lookahead.weight])
    · simp at h
    · rename_i hi
      obtain ⟨_, rfl⟩ := Prod.mk.inj h
      exact weight_set_lt hi (by simp [Lookahead.weight])
    · simp at h
    · split at h
      · rename_i hdraw
        obtain ⟨_, rfl⟩ := Prod.mk.inj h
        have hlt := Supply.size_draw_lt hdraw
        simp only [weight]
        omega
      · simp at h
    · split at h
      · rename_i hj
        exact ih _ hj h
      · simp at h

/-- Takes items of a stream through the first that satisfies `stop`, or all of them. -/
def takeThrough (stop : α → Bool) (n : Network σ α) (i : Nat) : List α × Network σ α :=
  match _h : n.next i with
  | (none, n') => ([], n')
  | (some a, n') =>
    if stop a then ([a], n')
    else
      let more := n'.takeThrough stop i
      (a :: more.1, more.2)
termination_by n.weight
decreasing_by exact weight_next_lt ‹_›

def takeAll (n : Network σ α) (i : Nat) : List α × Network σ α := n.takeThrough (fun _ => false) i

end Network
end ByteLexer
