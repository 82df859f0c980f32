import ByteLexer.Proofs.PlainList
import ByteLexer.Stream.Trace

/-!
# Tracing changes nothing

Forgetting what it adds, a traced network does at each use what the network without it does.
-/

namespace ByteLexer

variable {σ α β : Type}

section
variable [Supply σ α]

theorem Supply.drain_of_none {s : σ} (h : (Supply.draw s : Option α × σ).1 = none) :
    (Supply.drain s : List α × σ) = ([], (Supply.draw s : Option α × σ).2) := by
  rw [Supply.drain]
  split
  · rename_i s' hdraw
    rw [hdraw]
  · rename_i a s' hdraw
    rw [hdraw] at h
    cases h

theorem Supply.drain_of_some {s : σ} {a : α} (h : (Supply.draw s : Option α × σ).1 = some a) :
    (Supply.drain s : List α × σ) =
      (a :: (Supply.drain (Supply.draw s : Option α × σ).2 : List α × σ).1,
        (Supply.drain (Supply.draw s : Option α × σ).2 : List α × σ).2) := by
  rw [Supply.drain]
  split
  · rename_i s' hdraw
    rw [hdraw] at h
    cases h
  · rename_i b s' hdraw
    rw [hdraw] at h ⊢
    cases h
    rfl

end

@[simp] private theorem Traced.map_item_map_given (items : List α) :
    (items.map Traced.given).map Traced.item = items := by
  rw [List.map_map]
  exact List.map_id items

namespace Network

theorem getElem?_forget (n : Network (Recorder σ α) (Traced α)) (i : Nat) :
    n.forget.streams[i]? = n.streams[i]?.map (·.map Traced.item) := List.getElem?_map

private theorem getElem?_forget_of_some {n : Network (Recorder σ α) (Traced α)} {i : Nat}
    {s : Lookahead (Traced α)} (h : n.streams[i]? = some s) :
    n.forget.streams[i]? = some (s.map Traced.item) := by
  rw [getElem?_forget, h, Option.map_some]

private theorem length_forget (n : Network (Recorder σ α) (Traced α)) :
    n.forget.streams.length = n.streams.length := List.length_map _

private theorem forget_set (n : Network (Recorder σ α) (Traced α)) (i : Nat)
    (s : Lookahead (Traced α)) : (n.set i s).forget = n.forget.set i (s.map Traced.item) := by
  rw [forget, set, List.map_set]
  rfl

private theorem forget_prepend (n : Network (Recorder σ α) (Traced α)) (i : Nat)
    (items : List (Traced α)) :
    (n.prepend i items).forget = n.forget.prepend i (items.map Traced.item) := by
  cases h : n.streams[i]? with
  | none =>
    rw [prepend_of_none h, prepend_of_none]
    rw [getElem?_forget, h, Option.map_none]
  | some s =>
    rw [prepend_of_some h, prepend_of_some (getElem?_forget_of_some h), forget_set, Lookahead.map,
      List.map_append]
    rfl

private theorem forget_attach (n : Network (Recorder σ α) (Traced α)) (feed : Feed (Traced α)) :
    (n.attach feed).2.forget = (n.forget.attach (feed.map Traced.item)).2 := by
  rw [forget, attach, List.map_append]
  rfl

private theorem Reply.ofItem?_map {α' : Type} (f : α → α') (found : Option α) :
    (Reply.ofItem? (found.map f) : Reply α' β) = (Reply.ofItem? found).map f := by
  cases found <;> rfl

theorem prepended_forget (n : Network (Recorder σ α) (Traced α)) (u : Use α β) :
    n.forget.prepended u = (n.prepended (u.map .given)).map Traced.item := by
  cases u with
  | draw => rfl
  | drain => rfl
  | attach => rfl
  | stream call =>
    cases call with
    | prepend i items =>
      simp only [Use.map, Call.map, prepended, Call.prepended, length_forget]
      split
      · rw [Traced.map_item_map_given]
      · rfl
    | peek i fallback => rfl
    | next i => rfl
    | nonempty i => rfl
    | takeAll i => rfl
    | contains i item => rfl
    | wrap i => rfl

theorem pending_forget (n : Network (Recorder σ α) (Traced α)) :
    n.forget.pending = n.pending.map Traced.item := by
  rw [pending, forget, List.flatMap_map, pending, List.map_flatMap]
  rfl

variable [Supply σ α]

theorem draw_eq_of_supply {r : Recorder σ α} {found : Option α}
    (h : (Supply.draw r.supply : Option α × σ).1 = found) :
    (Supply.draw r : Option (Traced α) × Recorder σ α) = (found.map .drawn,
      ⟨(Supply.draw r.supply : Option α × σ).2, r.record ++ [found]⟩) := by
  rw [← h]
  rfl

private theorem draw_forget (r : Recorder σ α) : (Supply.draw r.supply : Option α × σ) =
    ((Supply.draw r : Option (Traced α) × Recorder σ α).1.map Traced.item,
      (Supply.draw r : Option (Traced α) × Recorder σ α).2.supply) := by
  have hitem : ∀ found : Option α, (found.map Traced.drawn).map Traced.item = found := by
    intro found
    cases found <;> rfl
  exact Prod.ext (hitem _).symm rfl

theorem next_forget (n : Network (Recorder σ α) (Traced α)) (i : Nat) :
    n.forget.next i = ((n.next i).1.map Traced.item, (n.next i).2.forget) := by
  fun_induction n.next i with
  | case1 i h =>
    rw [next, getElem?_forget, h]
    rfl
  | case2 i a pending feed h =>
    rw [next, getElem?_forget_of_some h, forget_set]
    rfl
  | case3 i h =>
    rw [next, getElem?_forget_of_some h]
    rfl
  | case4 i a left h =>
    rw [next, getElem?_forget_of_some h, forget_set]
    rfl
  | case5 i h =>
    rw [next, getElem?_forget_of_some h]
    rfl
  | case6 i h a supply hdraw =>
    have hplain := draw_forget n.supply
    rw [hdraw] at hplain
    rw [next, getElem?_forget_of_some h]
    simp only [Lookahead.map, Feed.map, List.map_nil, forget, hplain, Option.map_some]
  | case7 i h supply hdraw =>
    have hplain := draw_forget n.supply
    rw [hdraw] at hplain
    rw [next, getElem?_forget_of_some h, forget_set]
    simp only [Lookahead.map, Feed.map, List.map_nil, forget, hplain, Option.map_none]
  | case8 i j h hj ih =>
    rw [next, getElem?_forget_of_some h]
    simp only [Lookahead.map, Feed.map, List.map_nil, if_pos hj, ih]
  | case9 i j h hj =>
    rw [next, getElem?_forget_of_some h]
    simp only [Lookahead.map, Feed.map, List.map_nil, if_neg hj, Option.map_none]

private theorem peek_forget (n : Network (Recorder σ α) (Traced α)) (i : Nat) :
    n.forget.peek i = ((n.peek i).1.map Traced.item, (n.peek i).2.forget) := by
  rw [peek_eq, peek_eq, next_forget, forget_prepend]
  cases (n.next i).1 <;> rfl

private theorem takeThrough_forget (stop : α → Bool) (n : Network (Recorder σ α) (Traced α))
    (i : Nat) : n.forget.takeThrough stop i =
      ((n.takeThrough (fun a => stop a.item) i).1.map Traced.item,
        (n.takeThrough (fun a => stop a.item) i).2.forget) := by
  have hnext := n.next_forget i
  cases hfound : (n.next i).1 with
  | none =>
    rw [hfound] at hnext
    rw [takeThrough_of_none hfound, takeThrough_of_none (congrArg Prod.fst hnext), hnext]
    rfl
  | some a =>
    rw [hfound] at hnext
    rw [takeThrough_of_some hfound, takeThrough_of_some (congrArg Prod.fst hnext), hnext]
    split
    · rfl
    · rw [takeThrough_forget stop (n.next i).2 i]
      rfl
termination_by n.weight
decreasing_by exact weight_next_lt (Prod.ext hfound rfl)

private theorem drain_forget (r : Recorder σ α) : (Supply.drain r.supply : List α × σ) =
    ((Supply.drain r : List (Traced α) × Recorder σ α).1.map Traced.item,
      (Supply.drain r : List (Traced α) × Recorder σ α).2.supply) := by
  have hplain := draw_forget r
  cases hfound : (Supply.draw r : Option (Traced α) × Recorder σ α).1 with
  | none =>
    rw [hfound] at hplain
    rw [Supply.drain_of_none hfound, Supply.drain_of_none (congrArg Prod.fst hplain), hplain]
    rfl
  | some a =>
    rw [hfound] at hplain
    rw [Supply.drain_of_some hfound, Supply.drain_of_some (congrArg Prod.fst hplain), hplain,
      drain_forget (Supply.draw r : Option (Traced α) × Recorder σ α).2]
    rfl
termination_by Supply.size (Traced α) r
decreasing_by exact Supply.size_draw_lt (Prod.ext hfound rfl)

variable [BEq α]

theorem perform_forget (n : Network (Recorder σ α) (Traced α)) (call : Call α β) :
    n.forget.perform call = ((n.perform (call.map .given)).1.map Traced.item,
      (n.perform (call.map .given)).2.forget) := by
  cases call with
  | peek i fallback =>
    rw [perform, peek_forget]
    refine Prod.ext ?_ rfl
    simp only [Call.map, perform, Prod.map_fst]
    cases (n.peek i).1 <;> cases fallback <;> rfl
  | next i =>
    rw [perform, next_forget]
    exact Prod.ext (Reply.ofItem?_map Traced.item (n.next i).1) rfl
  | prepend i items =>
    refine Prod.ext rfl ((n.forget_prepend i (items.map .given)).trans ?_).symm
    rw [Traced.map_item_map_given]
    rfl
  | nonempty i =>
    rw [perform, peek_forget]
    exact Prod.ext (congrArg Reply.truth Option.isSome_map) rfl
  | takeAll i =>
    rw [perform, takeAll, takeThrough_forget]
    rfl
  | contains i item =>
    rw [perform, takeThrough_forget]
    exact Prod.ext (congrArg Reply.truth List.any_map) rfl
  | wrap i =>
    refine Prod.ext ?_ (n.forget_attach (.stream i)).symm
    exact congrArg Reply.opened n.length_forget

theorem use_forget (n : Network (Recorder σ α) (Traced α)) (u : Use α β) :
    n.forget.use u =
      ((n.use (u.map .given)).1.map Traced.item, (n.use (u.map .given)).2.forget) := by
  cases u with
  | draw =>
    have hdraw : (Supply.draw n.forget.supply : Option α × σ) = _ := draw_forget n.supply
    rw [use, hdraw]
    exact Prod.ext (Reply.ofItem?_map Traced.item _) rfl
  | drain =>
    have hdrain : (Supply.drain n.forget.supply : List α × σ) = _ := drain_forget n.supply
    rw [use, hdrain]
    rfl
  | attach =>
    refine Prod.ext ?_ (n.forget_attach (.supply false)).symm
    exact congrArg Reply.opened n.length_forget
  | stream call => exact n.perform_forget call

theorem taken_draw (n : Network σ α) :
    n.taken (.draw : Use α β) = (Supply.draw n.supply : Option α × σ).1.toList := by
  rw [taken, use, Prod.map_fst]
  cases (Supply.draw n.supply : Option α × σ).1 <;> rfl

theorem taken_drain (n : Network σ α) :
    n.taken (.drain : Use α β) = (Supply.drain n.supply : List α × σ).1 := List.append_nil _

theorem taken_next (n : Network σ α) (i : Nat) :
    n.taken (.stream (.next i) : Use α β) = (n.next i).1.toList := by
  rw [taken, use, perform, Prod.map_fst]
  cases (n.next i).1 <;> rfl

theorem taken_takeAll (n : Network σ α) (i : Nat) :
    n.taken (.stream (.takeAll i) : Use α β) = (n.takeAll i).1 := List.append_nil _

theorem taken_contains (n : Network σ α) (i : Nat) (item : α) :
    n.taken (.stream (.contains i item) : Use α β) = (n.takeThrough (· == item) i).1 :=
  (n.took_takeThrough (· == item) i).taken.symm

theorem taken_forget (n : Network (Recorder σ α) (Traced α)) (u : Use α β) :
    n.forget.taken u = (n.taken (u.map .given)).map Traced.item := by
  cases u with
  | draw =>
    rw [Use.map, taken_draw, taken_draw, ← Option.toList_map]
    exact congrArg (fun drawn => drawn.1.toList) (draw_forget n.supply)
  | drain =>
    rw [Use.map, taken_drain, taken_drain]
    exact congrArg Prod.fst (drain_forget n.supply)
  | attach => rfl
  | stream call =>
    cases call with
    | peek i fallback => rfl
    | next i => rw [Use.map, Call.map, taken_next, taken_next, next_forget, Option.toList_map]
    | prepend i items => rfl
    | nonempty i => rfl
    | takeAll i =>
      rw [Use.map, Call.map, taken_takeAll, taken_takeAll]
      exact congrArg Prod.fst (n.takeThrough_forget _ i)
    | contains i item =>
      rw [Use.map, Call.map, taken_contains, taken_contains]
      exact congrArg Prod.fst (n.takeThrough_forget _ i)
    | wrap i => rfl

theorem useAll_forget (n : Network (Recorder σ α) (Traced α)) (uses : List (Use α β)) :
    n.forget.useAll uses = ((n.useAll (uses.map (Use.map .given))).1.map (·.map Traced.item),
      (n.useAll (uses.map (Use.map .given))).2.forget) := by
  induction uses generalizing n with
  | nil => rfl
  | cons u uses ih =>
    rw [List.map_cons, useAll, useAll, use_forget, ih]
    rfl

/-- What holds of each use holds of several. -/
theorem along_forget {items : Network σ α → Use α β → List α}
    {traced : Network (Recorder σ α) (Traced α) → Use (Traced α) β → List (Traced α)}
    (h : ∀ n u, items n.forget u = (traced n (u.map .given)).map Traced.item)
    (n : Network (Recorder σ α) (Traced α)) (uses : List (Use α β)) :
    n.forget.along items uses =
      (n.along traced (uses.map (Use.map .given))).map Traced.item := by
  induction uses generalizing n with
  | nil => rfl
  | cons u uses ih => rw [List.map_cons, along, along, List.map_append, h, use_forget, ih]

end Network
end ByteLexer
