import ByteLexer.Proofs.Taking
import Mathlib.Data.List.TakeWhile

/-!
# Streams as plain lists

Seen through its content, a stream is a plain list, also when it is opened on another stream. A call
on it takes from the streams below it only what it asks for beyond the items held above them, and
leaves all other streams alone.
-/

namespace ByteLexer.Network

variable {σ α β : Type}

/-- Streams are opened on earlier ones only. -/
def Layered (n : Network σ α) : Prop := ∀ i j, n.Wraps i j → j < i

private theorem Layered.of_kinds {n after : Network σ α} (h : n.Layered)
    (hkinds : after.kinds = n.kinds) : after.Layered := by
  intro i j hwraps
  exact h i j (wraps_iff.mpr (hkinds ▸ wraps_iff.mp hwraps))

private theorem Layered.attach {n : Network σ α} (h : n.Layered) {feed : Feed α}
    (hfeed : ∀ j, feed = .stream j → j < n.streams.length) : (n.attach feed).2.Layered := by
  intro i j hwraps
  obtain ⟨pending, hs⟩ := hwraps
  have hget : (n.streams ++ [⟨[], feed⟩])[i]? = some ⟨pending, .stream j⟩ := hs
  by_cases hi : i < n.streams.length
  · rw [List.getElem?_append_left hi] at hget
    exact h i j ⟨pending, hget⟩
  · have hlast : i = n.streams.length := by
      obtain ⟨hlt, _⟩ := List.getElem?_eq_some_iff.mp hget
      rw [List.length_append, List.length_singleton] at hlt
      omega
    rw [hlast, List.getElem?_concat_length] at hget
    cases hget
    rw [hlast]
    exact hfeed j rfl

theorem Reachable.layered [Supply σ α] [BEq α] {n : Network σ α} (h : n.Reachable) :
    n.Layered := by
  induction h with
  | start supply =>
    intro i j hwraps
    obtain ⟨pending, hs⟩ := hwraps
    cases hs
  | attach feed _ hfeed ih => exact ih.attach hfeed
  | perform call _ hcall ih =>
    apply perform_keeps (P := Layered) _ _ call _ ih
    · intro n i hn
      exact hn.of_kinds (n.kinds_next i)
    · intro n i items hn
      exact hn.of_kinds (n.kinds_prepend i items)
    · intro i hwrap
      apply ih.attach
      intro j hj
      cases hj
      rwa [hwrap] at hcall

private theorem DrawsOn.lt {n : Network σ α} (hlayered : n.Layered) {i k : Nat}
    (h : n.DrawsOn i k) : k < i := by
  induction h with
  | wraps h => exact hlayered _ _ h
  | through h _ ih => exact Nat.lt_trans ih (hlayered _ _ h)

private theorem DrawsOn.of_kinds {n after : Network σ α} {i k : Nat} (h : n.DrawsOn i k)
    (hkinds : after.kinds = n.kinds) : after.DrawsOn i k := by
  induction h with
  | wraps h => exact .wraps (wraps_iff.mpr (hkinds ▸ wraps_iff.mp h))
  | through h _ ih => exact .through (wraps_iff.mpr (hkinds ▸ wraps_iff.mp h)) ih

private theorem drawsOn_iff {n : Network σ α} {i k : Nat} :
    n.DrawsOn i k ↔ ∃ j, n.Wraps i j ∧ (k = j ∨ n.DrawsOn j k) := by
  constructor
  · intro h
    cases h with
    | wraps h => exact ⟨k, h, Or.inl rfl⟩
    | through h hmore => exact ⟨_, h, Or.inr hmore⟩
  · intro h
    obtain ⟨j, hwraps, rfl | hmore⟩ := h
    · exact .wraps hwraps
    · exact .through hwraps hmore

private theorem drawsOn_iff_of_feed {n : Network σ α} {i j k : Nat} {pending : List α}
    (h : n.streams[i]? = some ⟨pending, .stream j⟩) : n.DrawsOn i k ↔ k = j ∨ n.DrawsOn j k := by
  rw [drawsOn_iff]
  constructor
  · intro hdraws
    obtain ⟨j', ⟨pending', h'⟩, hcases⟩ := hdraws
    rw [h] at h'
    cases h'
    exact hcases
  · intro hcases
    exact ⟨j, ⟨pending, h⟩, hcases⟩

private theorem not_drawsOn {n : Network σ α} {i : Nat} {s : Lookahead α}
    (h : n.streams[i]? = some s) (hfeed : ∀ j, s.feed ≠ .stream j) (k : Nat) : ¬ n.DrawsOn i k := by
  intro hdraws
  obtain ⟨j, ⟨pending, h'⟩, _⟩ := drawsOn_iff.mp hdraws
  rw [h] at h'
  cases h'
  exact hfeed j rfl

variable [Supply σ α]

private theorem content_congr {n after : Network σ α} (hsupply : after.supply = n.supply) {i : Nat}
    (hstreams : ∀ j ≤ i, after.streams[j]? = n.streams[j]?) : after.content i = n.content i := by
  induction i using Nat.strongRecOn with
  | ind i ih =>
    cases h : n.streams[i]? with
    | none =>
      rw [content_of_none h, content_of_none ((hstreams i (Nat.le_refl i)).trans h)]
    | some s =>
      rw [content_eq h, content_eq ((hstreams i (Nat.le_refl i)).trans h)]
      obtain ⟨pending, feed⟩ := s
      cases feed with
      | items left => rfl
      | supply ended => simp only [behind, hsupply]
      | stream j =>
        simp only [behind]
        split
        · rename_i hj
          rw [ih j hj fun k hk => hstreams k (by omega)]
        · rfl

private theorem content_set_of_lt (n : Network σ α) {i k : Nat} (h : k < i) (s : Lookahead α) :
    (n.set i s).content k = n.content k := by
  apply content_congr (supply_set n i s)
  intro j hj
  exact getElem?_set_ne n (by omega) s

private theorem behind_set (n : Network σ α) (i : Nat) (s : Lookahead α) (feed : Feed α) :
    (n.set i s).behind i feed = n.behind i feed := by
  cases feed with
  | items left => rfl
  | supply ended => rfl
  | stream j =>
    simp only [behind]
    split
    · rename_i hj
      rw [content_set_of_lt n hj]
    · rfl

private theorem content_of_lt {n : Network σ α} {i j : Nat} {pending : List α}
    (h : n.streams[i]? = some ⟨pending, .stream j⟩) (hj : j < i) :
    n.content i = pending ++ n.content j := by
  rw [content_eq h, behind, if_pos hj]

private theorem content_of_wraps {n : Network σ α} (hlayered : n.Layered) {i j : Nat}
    {pending : List α}
    (h : n.streams[i]? = some ⟨pending, .stream j⟩) : n.content i = pending ++ n.content j :=
  content_of_lt h (hlayered i j ⟨pending, h⟩)

private theorem length_content_le {n : Network σ α} (hlayered : n.Layered) {i k : Nat}
    (h : n.DrawsOn i k) : (n.content k).length ≤ (n.content i).length := by
  induction h with
  | wraps h =>
    obtain ⟨pending, hs⟩ := h
    rw [content_of_wraps hlayered hs, List.length_append]
    exact Nat.le_add_left _ _
  | through h _ ih =>
    obtain ⟨pending, hs⟩ := h
    rw [content_of_wraps hlayered hs, List.length_append]
    omega

/-- The items that a stream holds come on top of all that the streams below it have. -/
private theorem length_pending_add_le {n : Network σ α} (hlayered : n.Layered) {i k : Nat}
    {s : Lookahead α} (hs : n.streams[i]? = some s) (h : n.DrawsOn i k) :
    s.pending.length + (n.content k).length ≤ (n.content i).length := by
  obtain ⟨j, ⟨pending, hi⟩, hcases⟩ := drawsOn_iff.mp h
  rw [hs] at hi
  cases hi
  rw [content_of_wraps hlayered hs, List.length_append, Nat.add_le_add_iff_left]
  rcases hcases with rfl | hmore
  · exact Nat.le_refl _
  · exact length_content_le hlayered hmore

/-- A call on stream `i` asked for `m` items: the streams below lose those of them that are not held
above, and the streams it does not draw on are as they were. -/
structure Uses (n : Network σ α) (i m : Nat) (after : Network σ α) : Prop where
  below : ∀ k, n.DrawsOn i k → after.content k =
    (n.content k).drop (m - ((n.content i).length - (n.content k).length))
  others : ∀ k s, n.streams[k]? = some s → k ≠ i → ¬ n.DrawsOn i k → after.streams[k]? = some s

namespace Takes

variable {n after : Network σ α} {i : Nat} {found : Option α}

private theorem streams_of_lt (h : n.Takes i found after) {k : Nat} (hk : i < k) :
    after.streams[k]? = n.streams[k]? := by
  induction h with
  | empty i h => rfl
  | held i a pending feed h => exact getElem?_set_ne n (by omega) _
  | listed i a left h => exact getElem?_set_ne n (by omega) _
  | drawn i a supply h hdraw => rfl
  | closed i supply h hdraw => exact getElem?_set_ne { n with supply } (by omega) _
  | wrapped i j found after h hj hmore ih => exact ih (by omega)

theorem content_eq (h : n.Takes i found after) :
    found = (n.content i).head? ∧ after.content i = (n.content i).tail := by
  induction h with
  | empty i h =>
    rw [h]
    exact ⟨rfl, rfl⟩
  | held i a pending feed h =>
    rw [Network.content_eq h, Network.content_eq (getElem?_set_self h _), behind_set]
    exact ⟨rfl, rfl⟩
  | listed i a left h =>
    rw [Network.content_eq h, Network.content_eq (getElem?_set_self h _)]
    exact ⟨rfl, rfl⟩
  | drawn i a supply h hdraw =>
    have hbefore : n.content i = Supply.toList n.supply := Network.content_eq h
    have hafter : ({ n with supply } : Network σ α).content i = Supply.toList supply :=
      Network.content_eq (n := { n with supply }) h
    rw [hbefore, hafter, Supply.toList_of_draw hdraw]
    exact ⟨rfl, rfl⟩
  | closed i supply h hdraw =>
    have hbefore : n.content i = Supply.toList n.supply := Network.content_eq h
    rw [hbefore, Supply.toList_of_draw_none hdraw,
      Network.content_eq (getElem?_set_self (n := { n with supply }) h _)]
    exact ⟨rfl, rfl⟩
  | wrapped i j found after h hj hmore ih =>
    have hafter : after.streams[i]? = some ⟨[], .stream j⟩ := (hmore.streams_of_lt hj).trans h
    rw [content_of_lt h hj, content_of_lt hafter hj]
    exact ih

theorem uses (h : n.Takes i found after) (hlayered : n.Layered) : n.Uses i 1 after := by
  induction h with
  | empty i h =>
    refine ⟨?_, fun k s hs _ _ => hs⟩
    intro k hdraws
    have hle := length_content_le hlayered hdraws
    rw [h] at hle
    rw [List.length_eq_zero_iff.mp (Nat.le_zero.mp hle), List.drop_nil]
  | held i a pending feed h =>
    -- The item lies above all streams below, so none of them loses one.
    refine ⟨?_, fun k s hs hk _ => (getElem?_set_ne n hk.symm _).trans hs⟩
    intro k hdraws
    have hle := length_pending_add_le hlayered h hdraws
    rw [List.length_cons] at hle
    rw [content_set_of_lt n (hdraws.lt hlayered),
      Nat.sub_eq_zero_of_le (by omega : 1 ≤ (n.content i).length - (n.content k).length),
      List.drop_zero]
  | listed i a left h =>
    refine ⟨?_, fun k s hs hk _ => (getElem?_set_ne n hk.symm _).trans hs⟩
    intro k hdraws
    exact absurd hdraws (not_drawsOn h (by simp) k)
  | drawn i a supply h hdraw =>
    refine ⟨?_, fun k s hs _ _ => hs⟩
    intro k hdraws
    exact absurd hdraws (not_drawsOn h (by simp) k)
  | closed i supply h hdraw =>
    refine ⟨?_, fun k s hs hk _ => (getElem?_set_ne { n with supply } hk.symm _).trans hs⟩
    intro k hdraws
    exact absurd hdraws (not_drawsOn h (by simp) k)
  | wrapped i j found after h hj hmore ih =>
    -- Nothing is held here, so the whole demand falls on stream `j`.
    have hsame : n.content i = n.content j := content_of_wraps hlayered h
    refine ⟨?_, ?_⟩
    · intro k hdraws
      rw [hsame]
      rcases (drawsOn_iff_of_feed h).mp hdraws with rfl | hbelow
      · rw [hmore.content_eq.2, Nat.sub_self, Nat.sub_zero, List.drop_one]
      · exact ih.below k hbelow
    · intro k s hs _ hnot
      rw [drawsOn_iff_of_feed h, not_or] at hnot
      exact ih.others k s hs hnot.1 hnot.2

end Takes

/-- Taking `m` items of stream `i`, or all of them if there are less, gave the items `taken`. -/
structure Took (n : Network σ α) (i m : Nat) (taken : List α) (after : Network σ α) : Prop where
  kinds : after.kinds = n.kinds
  taken : taken = (n.content i).take m
  content : after.content i = (n.content i).drop m
  uses : n.Layered → n.Uses i m after

private theorem took_next (n : Network σ α) (i : Nat) :
    n.Took i 1 (n.next i).1.toList (n.next i).2 := by
  obtain ⟨hfound, hleft⟩ := (n.takes_next i).content_eq
  refine ⟨n.kinds_next i, ?_, ?_, (n.takes_next i).uses⟩
  · rw [hfound]
    cases n.content i <;> rfl
  · rw [hleft, List.drop_one]

private theorem Took.trans {n mid after : Network σ α} {i m m' : Nat} {taken taken' : List α}
    (h : n.Took i m taken mid) (hmore : mid.Took i m' taken' after) :
    n.Took i (m + m') (taken ++ taken') after := by
  refine ⟨hmore.kinds.trans h.kinds, ?_, ?_, fun hlayered => ⟨?_, ?_⟩⟩
  · rw [h.taken, hmore.taken, h.content, List.take_add]
  · rw [hmore.content, h.content, List.drop_drop]
  · intro k hdraws
    have hle := length_content_le hlayered hdraws
    have hmid := (hmore.uses (hlayered.of_kinds h.kinds)).below k (hdraws.of_kinds h.kinds)
    rw [hmid, (h.uses hlayered).below k hdraws, h.content,
      List.drop_drop, List.length_drop, List.length_drop]
    congr 1
    omega
  · intro k s hs hk hnot
    apply (hmore.uses (hlayered.of_kinds h.kinds)).others k s
      ((h.uses hlayered).others k s hs hk hnot) hk
    intro hdraws
    exact hnot (hdraws.of_kinds h.kinds.symm)

theorem took_takeThrough (n : Network σ α) (stop : α → Bool) (i : Nat) :
    n.Took i (((n.content i).takeWhile (!stop ·)).length + 1) (n.takeThrough stop i).1
      (n.takeThrough stop i).2 := by
  have hfirst := n.took_next i
  cases hnext : (n.next i).1 with
  | none =>
    have hnil : n.content i = [] := by
      rw [← List.head?_eq_none_iff, ← (n.takes_next i).content_eq.1, hnext]
    rw [hnext] at hfirst
    rw [takeThrough_of_none hnext, hnil]
    exact hfirst
  | some a =>
    obtain ⟨l, hcons⟩ : ∃ l, n.content i = a :: l := by
      rw [← List.head?_eq_some_iff, ← (n.takes_next i).content_eq.1, hnext]
    rw [hnext] at hfirst
    rw [takeThrough_of_some hnext, hcons]
    by_cases hstop : stop a = true
    · rw [if_pos hstop, List.takeWhile_cons_of_neg (by simp [hstop])]
      exact hfirst
    · have hmore := took_takeThrough (n.next i).2 stop i
      have hleft : (n.next i).2.content i = l := by rw [hfirst.content, hcons]; rfl
      rw [hleft] at hmore
      rw [if_neg hstop, List.takeWhile_cons_of_pos (by simp [hstop]), List.length_cons,
        Nat.add_comm _ 1]
      exact hfirst.trans hmore
termination_by n.weight
decreasing_by exact weight_next_lt (Prod.ext hnext rfl)

private theorem took_takeAll (n : Network σ α) (i : Nat) :
    n.Took i ((n.content i).length + 1) (n.takeAll i).1 (n.takeAll i).2 := by
  have htook := n.took_takeThrough (fun _ => false) i
  have hall : (n.content i).takeWhile (fun _ => !false) = n.content i :=
    List.takeWhile_eq_self_iff.mpr fun _ _ => rfl
  rwa [hall] at htook

theorem takeAll_eq_content (n : Network σ α) (i : Nat) : (n.takeAll i).1 = n.content i :=
  (n.took_takeAll i).taken.trans (List.take_of_length_le (Nat.le_succ _))

private theorem Uses.prepend {n mid : Network σ α} {i m : Nat} (h : n.Uses i m mid)
    (hlayered : n.Layered) (items : List α) : n.Uses i m (mid.prepend i items) := by
  cases hi : mid.streams[i]? with
  | none => rwa [prepend_of_none hi]
  | some s =>
    rw [prepend_of_some hi]
    refine ⟨?_, ?_⟩
    · intro k hdraws
      rw [content_set_of_lt mid (hdraws.lt hlayered), h.below k hdraws]
    · intro k s hs hk hnot
      exact (getElem?_set_ne mid hk.symm _).trans (h.others k s hs hk hnot)

private theorem Uses.refl (n : Network σ α) (i : Nat) : n.Uses i 0 n := by
  refine ⟨?_, fun k s hs _ _ => hs⟩
  intro k _
  rw [Nat.zero_sub, List.drop_zero]

private theorem content_prepend {n : Network σ α} {i : Nat} (hi : i < n.streams.length)
    (items : List α) : (n.prepend i items).content i = items ++ n.content i := by
  have hs : n.streams[i]? = some n.streams[i] := List.getElem?_eq_getElem hi
  rw [prepend_of_some hs, content_eq (getElem?_set_self hs _), behind_set, content_eq hs,
    List.append_assoc]

private theorem peek_refines {n : Network σ α} (hlayered : n.Layered) {i : Nat}
    (hi : i < n.streams.length) :
    (n.peek i).1 = (n.content i).head? ∧ (n.peek i).2.content i = n.content i ∧
      n.Uses i 1 (n.peek i).2 := by
  have hfirst := n.took_next i
  have hfound := (n.takes_next i).content_eq.1
  have hlength : i < (n.next i).2.streams.length := by rwa [length_streams_next]
  rw [peek_eq]
  refine ⟨hfound, ?_, (hfirst.uses hlayered).prepend hlayered _⟩
  rw [content_prepend hlength, hfirst.taken, hfirst.content, List.take_append_drop]

private theorem any_take_takeWhile (p : α → Bool) (l : List α) :
    (l.take ((l.takeWhile (!p ·)).length + 1)).any p = l.any p := by
  induction l with
  | nil => rfl
  | cons a l ih =>
    cases hp : p a with
    | true => simp [hp]
    | false => simpa [hp] using ih

private theorem drop_takeWhile_add_one (p : α → Bool) (l : List α) :
    l.drop ((l.takeWhile p).length + 1) = (l.dropWhile p).tail := by
  calc l.drop ((l.takeWhile p).length + 1)
      = (l.takeWhile p ++ l.dropWhile p).drop ((l.takeWhile p).length + 1) := by
        rw [List.takeWhile_append_dropWhile]
    _ = (l.dropWhile p).drop 1 := List.drop_length_add_append 1
    _ = (l.dropWhile p).tail := List.drop_one

variable [BEq α]

/-- The call answers as on the plain list of the content and leaves of it what it would there. -/
structure Refines (n : Network σ α) (call : Call α β) : Prop where
  answer : (n.perform call).1 = (call.onList n.streams.length (n.content call.stream)).1
  content : (n.perform call).2.content call.stream =
    (call.onList n.streams.length (n.content call.stream)).2
  uses : n.Uses call.stream (call.need (n.content call.stream)) (n.perform call).2

theorem refines_perform {n : Network σ α} (hlayered : n.Layered) (call : Call α β)
    (hcall : call.stream < n.streams.length) : n.Refines call := by
  cases call with
  | peek i fallback =>
    obtain ⟨hfound, hcontent, huses⟩ := peek_refines (i := i) hlayered hcall
    refine ⟨?_, hcontent, huses⟩
    cases hhead : (n.content i).head? <;> cases fallback <;>
      simp only [perform, Prod.map_fst, hfound, hhead, Call.onList, Call.stream]
  | next i =>
    obtain ⟨hfound, hleft⟩ := (n.takes_next i).content_eq
    exact ⟨congrArg Reply.ofItem? hfound, hleft, (n.takes_next i).uses hlayered⟩
  | prepend i items =>
    exact ⟨rfl, content_prepend hcall items, (Uses.refl n i).prepend hlayered items⟩
  | nonempty i =>
    obtain ⟨hfound, hcontent, huses⟩ := peek_refines (i := i) hlayered hcall
    refine ⟨?_, hcontent, huses⟩
    simp only [perform, Prod.map_fst, hfound, Call.onList, Call.stream]
    cases n.content i <;> rfl
  | takeAll i =>
    have htook := n.took_takeAll i
    refine ⟨?_, ?_, htook.uses hlayered⟩
    · exact congrArg Reply.items (n.takeAll_eq_content i)
    · exact htook.content.trans (List.drop_of_length_le (Nat.le_succ _))
  | contains i item =>
    have htook := n.took_takeThrough (· == item) i
    refine ⟨?_, ?_, htook.uses hlayered⟩
    · have hany := any_take_takeWhile (· == item) (n.content i)
      rw [← htook.taken] at hany
      exact congrArg Reply.truth hany
    · exact htook.content.trans (drop_takeWhile_add_one (· != item) (n.content i))
  | wrap i =>
    have hsame : ∀ k < n.streams.length, (n.attach (.stream i)).2.content k = n.content k := by
      intro k hk
      apply content_congr (n.supply_attach _)
      intro j hj
      exact n.getElem?_attach_of_lt _ (by omega)
    refine ⟨rfl, hsame i hcall, ?_, ?_⟩
    · intro k hdraws
      rw [Call.need, Nat.zero_sub, List.drop_zero]
      exact hsame k (Nat.lt_trans (hdraws.lt hlayered) hcall)
    · intro k s hs _ _
      obtain ⟨hk, _⟩ := List.getElem?_eq_some_iff.mp hs
      exact (n.getElem?_attach_of_lt _ hk).trans hs

/-- In every network that opening streams and making calls leads to, a stream is the plain list of
the items it holds and of what its feed has: each call answers and changes its stream as on that
list, takes from a stream below only what it asks for beyond the items held above, and leaves the
streams alone that it does not draw on. -/
theorem reachable_refines {n : Network σ α} (h : n.Reachable) :
    (∀ i pending left, n.streams[i]? = some ⟨pending, .items left⟩ →
      n.content i = pending ++ left) ∧
    (∀ i pending j, n.streams[i]? = some ⟨pending, .stream j⟩ →
      n.content i = pending ++ n.content j) ∧
    ∀ (call : Call α β), call.stream < n.streams.length →
      let i := call.stream
      let l := n.content i
      let after := (n.perform call).2
      ((n.perform call).1, after.content i) = call.onList n.streams.length l ∧
      (∀ k, n.DrawsOn i k → after.content k =
        (n.content k).drop (call.need l - (l.length - (n.content k).length))) ∧
      ∀ k s, n.streams[k]? = some s → k ≠ i → ¬ n.DrawsOn i k → after.streams[k]? = some s := by
  have hlayered := h.layered
  refine ⟨?_, ?_, ?_⟩
  · intro i pending left hs
    rw [content_eq hs, behind]
  · intro i pending j hs
    exact content_of_wraps hlayered hs
  · intro call hcall
    have hcall := refines_perform hlayered call hcall
    exact ⟨Prod.ext hcall.answer hcall.content, hcall.uses.below, hcall.uses.others⟩

/-- Two streams on one list: what is put back below lands behind the item that the first of them
looked at, and a search there takes it from both. -/
theorem reachable_refines_wrapped :
    let n : Network Unit Nat :=
      ⟨(), [⟨[9], .items [2]⟩, ⟨[1], .stream 0⟩, ⟨[], .stream 0⟩]⟩
    let call : Call Nat Unit := .contains 1 9
    n.Reachable ∧ call.stream < n.streams.length ∧ n.content 1 = [1, 9, 2] ∧ n.DrawsOn 1 0 ∧
      ((n.perform call).1, (n.perform call).2.content 1) = (.truth true, [2]) ∧
      (n.perform call).2.content 0 = [2] ∧
      (n.perform call).2.streams[2]? = some ⟨[], .stream 0⟩ := by
  intro n call
  let opened : Network Unit Nat :=
    ⟨(), [⟨[], .items [1, 2]⟩, ⟨[], .stream 0⟩, ⟨[], .stream 0⟩]⟩
  have hopened : opened.Reachable :=
    .attach (.stream 0) (.attach (.stream 0) (.attach (.items [1, 2]) (.start ()) (by simp))
      (by simp [attach])) (by simp [attach])
  have hlooked : (opened.perform (.peek 1 none : Call Nat Unit)).2 =
      ⟨(), [⟨[], .items [2]⟩, ⟨[1], .stream 0⟩, ⟨[], .stream 0⟩]⟩ := by
    simp [opened, perform, peek, next, set, prepend]
  have hn : n.Reachable := by
    have hreach := (hopened.perform (.peek 1 none : Call Nat Unit) (by decide)).perform
      (.prepend 0 [9] : Call Nat Unit) (by rw [hlooked]; decide)
    rw [hlooked] at hreach
    exact hreach
  have hwraps : n.DrawsOn 1 0 := .wraps ⟨[1], rfl⟩
  obtain ⟨hitems, hstream, hcalls⟩ := reachable_refines (β := Unit) hn
  have hbelow : n.content 0 = [9, 2] := hitems 0 [9] [2] rfl
  have hcontent : n.content 1 = [1, 9, 2] := by rw [hstream 1 [1] 0 rfl, hbelow]; rfl
  obtain ⟨hanswer, hdrop, hothers⟩ := hcalls call (by decide)
  refine ⟨hn, by decide, hcontent, hwraps, ?_, ?_, ?_⟩
  · rw [show call.stream = 1 from rfl, hcontent] at hanswer
    rw [hanswer]
    rfl
  · rw [hdrop 0 hwraps, show call.stream = 1 from rfl, hcontent, hbelow]
    rfl
  · apply hothers 2 _ rfl (by decide)
    intro hdraws
    exact absurd (hdraws.lt hn.layered) (by decide)

end ByteLexer.Network
