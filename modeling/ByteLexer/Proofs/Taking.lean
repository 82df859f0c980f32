import ByteLexer.Stream.Content

/-!
# Taking items of a stream

All that one taken item can change: a stream loses its first item, a list gets shorter, the supply
is drawn from, or nothing is there. What the streams feed on stays as it is, apart from a stream
that finds the supply at an end.
-/

namespace ByteLexer

inductive Feed.Kind where
  | items
  | supply
  | stream (index : Nat)

def Feed.kind {α : Type} : Feed α → Feed.Kind
  | .items _ => .items
  | .supply _ => .supply
  | .stream j => .stream j

theorem Supply.toList_of_draw {σ α : Type} [Supply σ α] {s s' : σ} {a : α}
    (h : Supply.draw s = (some a, s')) : (Supply.toList s : List α) = a :: Supply.toList s' := by
  rw [Supply.toList]
  split
  · rename_i hdraw
    rw [h] at hdraw
    cases hdraw
  · rename_i hdraw
    rw [h] at hdraw
    cases hdraw
    rfl

theorem Supply.toList_of_draw_none {σ α : Type} [Supply σ α] {s s' : σ}
    (h : (Supply.draw s : Option α × σ) = (none, s')) : (Supply.toList s : List α) = [] := by
  rw [Supply.toList]
  split
  · rfl
  · rename_i hdraw
    rw [h] at hdraw
    cases hdraw

namespace Network

variable {σ α : Type}

@[simp] theorem supply_set (n : Network σ α) (i : Nat) (s : Lookahead α) :
    (n.set i s).supply = n.supply := rfl

theorem getElem?_set_self {n : Network σ α} {i : Nat} {old : Lookahead α}
    (h : n.streams[i]? = some old) (new : Lookahead α) : (n.set i new).streams[i]? = some new := by
  obtain ⟨hi, _⟩ := List.getElem?_eq_some_iff.mp h
  exact List.getElem?_set_self hi

theorem getElem?_set_ne (n : Network σ α) {i k : Nat} (h : i ≠ k) (new : Lookahead α) :
    (n.set i new).streams[k]? = n.streams[k]? := List.getElem?_set_ne h

theorem prepend_of_some {n : Network σ α} {i : Nat} {s : Lookahead α}
    (h : n.streams[i]? = some s) (items : List α) :
    n.prepend i items = n.set i { s with pending := items ++ s.pending } := by
  rw [prepend, h]

theorem prepend_of_none {n : Network σ α} {i : Nat} (h : n.streams[i]? = none) (items : List α) :
    n.prepend i items = n := by
  rw [prepend, h]

theorem prepend_of_length_le {n : Network σ α} {i : Nat} (h : n.streams.length ≤ i)
    (items : List α) : n.prepend i items = n :=
  prepend_of_none (List.getElem?_eq_none h) items

@[simp] theorem supply_prepend (n : Network σ α) (i : Nat) (items : List α) :
    (n.prepend i items).supply = n.supply := by
  rw [prepend]
  split <;> rfl

@[simp] theorem supply_attach (n : Network σ α) (feed : Feed α) :
    (n.attach feed).2.supply = n.supply := rfl

theorem getElem?_attach_of_lt (n : Network σ α) (feed : Feed α) {k : Nat}
    (h : k < n.streams.length) : (n.attach feed).2.streams[k]? = n.streams[k]? :=
  List.getElem?_append_left h

def kinds (n : Network σ α) : List Feed.Kind := n.streams.map fun s => s.feed.kind

theorem wraps_iff {n : Network σ α} {i j : Nat} :
    n.Wraps i j ↔ n.kinds[i]? = some (.stream j) := by
  rw [kinds, List.getElem?_map]
  constructor
  · intro h
    obtain ⟨pending, h⟩ := h
    rw [h]
    rfl
  · intro h
    obtain ⟨⟨pending, feed⟩, hs, hfeed⟩ := Option.map_eq_some_iff.mp h
    cases feed with
    | stream k =>
      cases hfeed
      exact ⟨pending, hs⟩
    | items left => cases hfeed
    | supply ended => cases hfeed

theorem kinds_set {n : Network σ α} {i : Nat} {old new : Lookahead α}
    (h : n.streams[i]? = some old) (hfeed : new.feed.kind = old.feed.kind) :
    (n.set i new).kinds = n.kinds := by
  have hi : n.kinds[i]? = some new.feed.kind := by
    rw [kinds, List.getElem?_map, h, Option.map_some, hfeed]
  obtain ⟨hlt, hget⟩ := List.getElem?_eq_some_iff.mp hi
  calc (n.set i new).kinds = n.kinds.set i new.feed.kind := List.map_set
    _ = n.kinds.set i n.kinds[i] := by rw [hget]
    _ = n.kinds := List.set_getElem_self hlt

theorem kinds_attach (n : Network σ α) (feed : Feed α) :
    (n.attach feed).2.kinds = n.kinds ++ [feed.kind] := List.map_append

theorem kinds_prepend (n : Network σ α) (i : Nat) (items : List α) :
    (n.prepend i items).kinds = n.kinds := by
  cases h : n.streams[i]? with
  | none => rw [prepend_of_none h]
  | some s =>
    rw [prepend_of_some h]
    exact kinds_set h rfl

variable [Supply σ α]

def behind (n : Network σ α) (i : Nat) : Feed α → List α
  | .items left => left
  | .supply ended => if ended then [] else Supply.toList n.supply
  | .stream j => if j < i then n.content j else []

theorem content_eq {n : Network σ α} {i : Nat} {s : Lookahead α} (h : n.streams[i]? = some s) :
    n.content i = s.pending ++ n.behind i s.feed := by
  obtain ⟨pending, feed⟩ := s
  rw [content, h]
  cases feed <;> rfl

theorem content_of_none {n : Network σ α} {i : Nat} (h : n.streams[i]? = none) :
    n.content i = [] := by
  rw [content, h]

/-- What can come of taking an item of a stream: what is found and the network after it. -/
inductive Takes (n : Network σ α) : Nat → Option α → Network σ α → Prop where
  | empty (i : Nat) (h : n.content i = []) : Takes n i none n
  | held (i : Nat) (a : α) (pending : List α) (feed : Feed α)
      (h : n.streams[i]? = some ⟨a :: pending, feed⟩) :
      Takes n i (some a) (n.set i ⟨pending, feed⟩)
  | listed (i : Nat) (a : α) (left : List α)
      (h : n.streams[i]? = some ⟨[], .items (a :: left)⟩) :
      Takes n i (some a) (n.set i ⟨[], .items left⟩)
  | drawn (i : Nat) (a : α) (supply : σ) (h : n.streams[i]? = some ⟨[], .supply false⟩)
      (hdraw : Supply.draw n.supply = (some a, supply)) : Takes n i (some a) { n with supply }
  | closed (i : Nat) (supply : σ) (h : n.streams[i]? = some ⟨[], .supply false⟩)
      (hdraw : (Supply.draw n.supply : Option α × σ) = (none, supply)) :
      Takes n i none ({ n with supply }.set i ⟨[], .supply true⟩)
  | wrapped (i j : Nat) (found : Option α) (after : Network σ α)
      (h : n.streams[i]? = some ⟨[], .stream j⟩) (hj : j < i) (hmore : Takes n j found after) :
      Takes n i found after

theorem takes_next (n : Network σ α) (i : Nat) : n.Takes i (n.next i).1 (n.next i).2 := by
  fun_induction n.next i with
  | case1 i h => exact .empty i (content_of_none h)
  | case2 i a pending feed h => exact .held i a pending feed h
  | case3 i h => exact .empty i (content_eq h)
  | case4 i a left h => exact .listed i a left h
  | case5 i h => exact .empty i (content_eq h)
  | case6 i h a supply hdraw => exact .drawn i a supply h hdraw
  | case7 i h supply hdraw => exact .closed i supply h hdraw
  | case8 i j h hj ih => exact .wrapped i j _ _ h hj ih
  | case9 i j h hj =>
    refine .empty i ?_
    rw [content_eq h, behind, if_neg hj]
    rfl

namespace Takes

variable {n after : Network σ α} {i : Nat} {found : Option α}

theorem kinds_eq (h : n.Takes i found after) : after.kinds = n.kinds := by
  induction h with
  | empty i h => rfl
  | held i a pending feed h => exact kinds_set h rfl
  | listed i a left h => exact kinds_set h rfl
  | drawn i a supply h hdraw => rfl
  | closed i supply h hdraw => exact kinds_set (n := { n with supply }) h rfl
  | wrapped i j found after h hj hmore ih => exact ih

end Takes

theorem kinds_next (n : Network σ α) (i : Nat) : (n.next i).2.kinds = n.kinds :=
  (n.takes_next i).kinds_eq

theorem length_streams_next (n : Network σ α) (i : Nat) :
    (n.next i).2.streams.length = n.streams.length := by
  have hkinds := congrArg List.length (n.kinds_next i)
  rwa [kinds, kinds, List.length_map, List.length_map] at hkinds

theorem takeThrough_of_none {n : Network σ α} {i : Nat} (h : (n.next i).1 = none)
    (stop : α → Bool) : n.takeThrough stop i = ([], (n.next i).2) := by
  rw [takeThrough]
  split
  · rename_i after hnext
    rw [hnext]
  · rename_i a after hnext
    rw [hnext] at h
    cases h

theorem takeThrough_of_some {n : Network σ α} {i : Nat} {a : α} (h : (n.next i).1 = some a)
    (stop : α → Bool) : n.takeThrough stop i =
      if stop a then ([a], (n.next i).2)
      else (a :: ((n.next i).2.takeThrough stop i).1, ((n.next i).2.takeThrough stop i).2) := by
  rw [takeThrough]
  split
  · rename_i after hnext
    rw [hnext] at h
    cases h
  · rename_i b after hnext
    rw [hnext] at h ⊢
    cases h
    rfl

theorem peek_eq (n : Network σ α) (i : Nat) :
    n.peek i = ((n.next i).1, (n.next i).2.prepend i (n.next i).1.toList) := by
  have hnil : ∀ m : Network σ α, m.prepend i [] = m := by
    intro m
    cases h : m.streams[i]? with
    | none => exact prepend_of_none h []
    | some s =>
      obtain ⟨hi, hget⟩ := List.getElem?_eq_some_iff.mp h
      rw [prepend_of_some h, set, List.nil_append, ← hget, List.set_getElem_self]
  rw [peek]
  split
  · rename_i a after hnext
    rw [hnext]
    rfl
  · rename_i after hnext
    rw [hnext, Option.toList_none, hnil]

/-- An account of the items taken so far goes on through all items that are taken. -/
theorem takeThrough_keeps {P : Network σ α → List α → Prop} {i : Nat}
    (hnext : ∀ n taken, P n taken → P (n.next i).2 (taken ++ (n.next i).1.toList))
    (stop : α → Bool) {n : Network σ α} (h : P n []) :
    P (n.takeThrough stop i).2 (n.takeThrough stop i).1 := by
  -- The account has entries once an item is taken, so it is carried on from any state of it.
  have hall : ∀ taken, P n taken →
      P (n.takeThrough stop i).2 (taken ++ (n.takeThrough stop i).1) := by
    clear h
    fun_induction n.takeThrough stop i with
    | case1 n after hcall =>
      intro taken h
      have hafter := hnext n taken h
      rwa [hcall] at hafter
    | case2 n a after hcall hstop =>
      intro taken h
      have hafter := hnext n taken h
      rwa [hcall] at hafter
    | case3 n a after hcall hstop more ih =>
      intro taken h
      have hafter := hnext n taken h
      rw [hcall] at hafter
      have hmore := ih _ hafter
      rwa [List.append_assoc] at hmore
  exact hall [] h

/-- What taking an item, putting items back and opening a stream keep, every call keeps. -/
theorem perform_keeps {β : Type} [BEq α] {P : Network σ α → Prop}
    (hnext : ∀ n i, P n → P (n.next i).2) (hprepend : ∀ n i items, P n → P (n.prepend i items))
    {n : Network σ α} (call : Call α β)
    (hattach : ∀ i, call = .wrap i → P (n.attach (.stream i)).2) (h : P n) :
    P (n.perform call).2 := by
  have hpeek : ∀ i, P (n.peek i).2 := by
    intro i
    rw [peek_eq]
    exact hprepend _ i _ (hnext n i h)
  have htake : ∀ stop i, P (n.takeThrough stop i).2 := by
    intro stop i
    exact takeThrough_keeps (P := fun m _ => P m) (fun m _ hm => hnext m i hm) stop h
  cases call with
  | peek i fallback => exact hpeek i
  | next i => exact hnext n i h
  | prepend i items => exact hprepend n i items h
  | nonempty i => exact hpeek i
  | takeAll i => exact htake _ i
  | contains i item => exact htake _ i
  | wrap i => exact hattach i rfl

end Network
end ByteLexer
