import ByteLexer.Proofs.Sharing

/-!
# Looking ahead

A stream with a supply of its own pulls an item only when it holds none, so it holds at most one
that was not put there, and draws once for each item it took and once more for the end. Behind the
end no stream draws any more.
-/

namespace ByteLexer

namespace Network

variable {σ α β : Type}

private theorem getElem?_prepend_self {n : Network σ α} {i : Nat} {pending : List α} {feed : Feed α}
    (h : n.streams[i]? = some ⟨pending, feed⟩) (items : List α) :
    (n.prepend i items).streams[i]? = some ⟨items ++ pending, feed⟩ := by
  rw [prepend_of_some h]
  exact getElem?_set_self h _

/-- The first stream holds the items `front` that were put there and behind them the item that it
pulled, if any. It drew the items `consumed` and then the one pulled, and once more if it saw the
end. -/
structure Ahead (n : Network (Recorder σ α) (Traced α)) (consumed front : List α)
    (pulled : Option α) (ended : Bool) : Prop where
  stream : n.streams[0]? =
    some ⟨front.map .given ++ pulled.toList.map .drawn, .supply ended⟩
  record : n.supply.record =
    (consumed ++ pulled.toList).map some ++ if ended then [none] else []

/-- The first stream looks at most one item of the supply ahead. -/
def LooksAhead (n : Network (Recorder σ α) (Traced α)) (consumed : List α) : Prop :=
  ∃ front pulled ended, n.Ahead consumed front pulled ended

namespace LooksAhead

variable {n : Network (Recorder σ α) (Traced α)} {consumed : List α}

private theorem start (s : σ) :
    (single ⟨s, []⟩ : Network (Recorder σ α) (Traced α)).LooksAhead [] :=
  ⟨[], none, false, rfl, rfl⟩

private theorem prepend (h : n.LooksAhead consumed) (items : List α) :
    (n.prepend 0 (items.map .given)).LooksAhead consumed := by
  obtain ⟨front, pulled, ended, hstream, hrecord⟩ := h
  refine ⟨items ++ front, pulled, ended, ?_, ?_⟩
  · rw [getElem?_prepend_self hstream, List.map_append, List.append_assoc]
  · rw [supply_prepend, hrecord]

private theorem attach (h : n.LooksAhead consumed) (feed : Feed (Traced α)) :
    (n.attach feed).2.LooksAhead consumed := by
  obtain ⟨front, pulled, ended, hstream, hrecord⟩ := h
  obtain ⟨hlength, _⟩ := List.getElem?_eq_some_iff.mp hstream
  exact ⟨front, pulled, ended, (n.getElem?_attach_of_lt feed hlength).trans hstream, hrecord⟩

private theorem append_nil (h : n.LooksAhead consumed) : n.LooksAhead (consumed ++ []) := by
  rwa [List.append_nil]

private theorem of_drawn {a : α} {ended : Bool} (hstream : n.streams[0]? = some ⟨[], .supply ended⟩)
    (hrecord : n.supply.record = (consumed ++ [a]).map some ++ if ended then [none] else []) :
    n.LooksAhead (consumed ++ [a]) ∧ (n.prepend 0 [.drawn a]).LooksAhead consumed := by
  refine ⟨⟨[], none, ended, hstream, ?_⟩, [], some a, ended, ?_, ?_⟩
  · rw [Option.toList_none, List.append_nil]
    exact hrecord
  · exact getElem?_prepend_self hstream _
  · rw [supply_prepend]
    exact hrecord

variable [Supply σ α]

private theorem next_of_drawing (hstream : n.streams[0]? = some ⟨[], .supply false⟩)
    (hrecord : n.supply.record = consumed.map some) :
    (n.next 0).2.LooksAhead (consumed ++ (n.next 0).1.toList.filterMap Traced.drawn?) ∧
      ((n.next 0).2.prepend 0 (n.next 0).1.toList).LooksAhead consumed := by
  cases hfound : (Supply.draw n.supply.supply : Option α × σ).1 with
  | some a =>
    have hnext : n.next 0 = (some (.drawn a), { n with
        supply := ⟨(Supply.draw n.supply.supply : Option α × σ).2,
          n.supply.record ++ [some a]⟩ }) := by
      rw [Network.next, hstream]
      simp only [draw_eq_of_supply hfound, Option.map_some]
    rw [hnext]
    refine of_drawn hstream ?_
    simp [hrecord]
  | none =>
    let drawn : Network (Recorder σ α) (Traced α) := { n with
      supply := ⟨(Supply.draw n.supply.supply : Option α × σ).2, n.supply.record ++ [none]⟩ }
    have hnext : n.next 0 = (none, drawn.set 0 ⟨[], .supply true⟩) := by
      rw [Network.next, hstream]
      simp only [draw_eq_of_supply hfound, Option.map_none]
      rfl
    have hafter : (drawn.set 0 ⟨[], .supply true⟩).LooksAhead consumed :=
      ⟨[], none, true, getElem?_set_self hstream _, by simp [drawn, hrecord]⟩
    rw [hnext]
    exact ⟨hafter.append_nil, hafter.prepend []⟩

private theorem next (h : n.LooksAhead consumed) :
    (n.next 0).2.LooksAhead (consumed ++ (n.next 0).1.toList.filterMap Traced.drawn?) ∧
      ((n.next 0).2.prepend 0 (n.next 0).1.toList).LooksAhead consumed := by
  obtain ⟨front, pulled, ended, hstream, hrecord⟩ := h
  -- What was put in front goes first, then the item pulled; only a stream that holds nothing draws.
  cases front with
  | cons a front =>
    have hnext : n.next 0 = (some (.given a),
        n.set 0 ⟨front.map .given ++ pulled.toList.map .drawn, .supply ended⟩) := by
      rw [Network.next, hstream]
      rfl
    have hafter : LooksAhead (n.set 0 ⟨_, _⟩) consumed :=
      ⟨front, pulled, ended, getElem?_set_self hstream _, hrecord⟩
    rw [hnext]
    exact ⟨hafter.append_nil, hafter.prepend [a]⟩
  | nil =>
    cases pulled with
    | some a =>
      have hnext : n.next 0 = (some (.drawn a), n.set 0 ⟨[], .supply ended⟩) := by
        rw [Network.next, hstream]
        rfl
      rw [hnext]
      exact of_drawn (getElem?_set_self hstream _) hrecord
    | none =>
      cases ended with
      | true =>
        have hnext : n.next 0 = (none, n) := by
          rw [Network.next, hstream]
          rfl
        have hafter : n.LooksAhead consumed := ⟨[], none, true, hstream, hrecord⟩
        rw [hnext]
        exact ⟨hafter.append_nil, hafter.prepend []⟩
      | false =>
        simp only [Option.toList_none, List.append_nil, Bool.false_eq_true, if_false] at hrecord
        exact next_of_drawing hstream hrecord

private theorem takeThrough (h : n.LooksAhead consumed) (stop : Traced α → Bool) :
    (n.takeThrough stop 0).2.LooksAhead
      (consumed ++ (n.takeThrough stop 0).1.filterMap Traced.drawn?) := by
  refine takeThrough_keeps
    (P := fun m taken => m.LooksAhead (consumed ++ taken.filterMap Traced.drawn?)) ?_ stop
    h.append_nil
  intro m taken hm
  rw [List.filterMap_append, ← List.append_assoc]
  exact hm.next.1

variable [BEq α]

theorem use (h : n.LooksAhead consumed) (call : Call α β) (hcall : call.stream = 0) :
    let u : Use (Traced α) β := .stream (call.map .given)
    (n.use u).2.LooksAhead (consumed ++ (n.taken u).filterMap Traced.drawn?) := by
  intro u
  have hpeek : (n.peek 0).2.LooksAhead consumed := by
    rw [peek_eq]
    exact h.next.2
  cases call with
  | peek i fallback =>
    cases hcall
    exact hpeek.append_nil
  | next i =>
    cases hcall
    rw [show n.taken u = (n.next 0).1.toList from n.taken_next 0]
    exact h.next.1
  | prepend i items =>
    cases hcall
    exact (h.prepend items).append_nil
  | nonempty i =>
    cases hcall
    exact hpeek.append_nil
  | takeAll i =>
    cases hcall
    rw [show n.taken u = (n.takeAll 0).1 from n.taken_takeAll 0]
    exact h.takeThrough _
  | contains i item =>
    cases hcall
    rw [show n.taken u = (n.takeThrough (· == .given item) 0).1 from n.taken_contains 0 _]
    exact h.takeThrough _
  | wrap i => exact (h.attach (.stream i)).append_nil

theorem useAll {n : Network (Recorder σ α) (Traced α)} {consumed : List α}
    (h : n.LooksAhead consumed) (calls : List (Call α β))
    (hcalls : ∀ call ∈ calls, call.stream = 0) :
    (n.useAll (calls.map fun call => .stream (call.map .given))).2.LooksAhead (consumed ++
      (n.along taken (calls.map fun call => .stream (call.map .given))).filterMap
        Traced.drawn?) := by
  induction calls generalizing n consumed with
  | nil => exact h.append_nil
  | cons call calls ih =>
    obtain ⟨hcall, hcalls⟩ := List.forall_mem_cons.mp hcalls
    have hmore := ih (h.use call hcall) hcalls
    rwa [List.append_assoc, ← List.filterMap_append] at hmore

end LooksAhead

/-- No stream draws on the supply any more. -/
def Quiet (n : Network σ α) : Prop :=
  ∀ (i : Nat) (pending : List α), n.streams[i]? ≠ some ⟨pending, .supply false⟩

private theorem quiet_set {n : Network σ α} {i : Nat} {new : Lookahead α}
    (hothers : ∀ k pending, k ≠ i → n.streams[k]? ≠ some ⟨pending, .supply false⟩)
    (hnew : new.feed ≠ .supply false) : (n.set i new).Quiet := by
  intro k pending hk
  by_cases hki : k = i
  · rw [hki, set, List.getElem?_set, if_pos rfl] at hk
    split at hk
    · cases hk
      exact hnew rfl
    · cases hk
  · rw [getElem?_set_ne n (Ne.symm hki)] at hk
    exact hothers k pending hki hk

namespace Quiet

variable {n : Network σ α}

private theorem prepend (h : n.Quiet) (i : Nat) (items : List α) : (n.prepend i items).Quiet := by
  cases hs : n.streams[i]? with
  | none => rwa [prepend_of_none hs]
  | some s =>
    rw [prepend_of_some hs]
    refine quiet_set (fun k pending _ => h k pending) ?_
    intro hfeed
    exact h i s.pending (hs.trans (by rw [← show s.feed = .supply false from hfeed]))

private theorem attach (h : n.Quiet) (j : Nat) : (n.attach (.stream j)).2.Quiet := by
  intro i pending hs
  have hget : (n.streams ++ [⟨[], .stream j⟩])[i]? = some ⟨pending, .supply false⟩ := hs
  rcases List.mem_append.mp (List.mem_of_getElem? hget) with hold | hnew
  · obtain ⟨k, hk⟩ := List.mem_iff_getElem?.mp hold
    exact h k pending hk
  · cases List.mem_singleton.mp hnew

private theorem forget {n : Network (Recorder σ α) (Traced α)} (h : n.Quiet) : n.forget.Quiet := by
  intro i pending hs
  rw [getElem?_forget] at hs
  obtain ⟨⟨pending', feed⟩, hs', hmap⟩ := Option.map_eq_some_iff.mp hs
  cases feed with
  | supply ended =>
    cases hmap
    exact h i pending' hs'
  | items left => cases hmap
  | stream j => cases hmap

variable [Supply σ α]

private theorem takes (h : n.Quiet) {i : Nat} {found : Option α} {after : Network σ α}
    (htakes : n.Takes i found after) : after.Quiet ∧ after.supply = n.supply := by
  induction htakes with
  | empty i hempty => exact ⟨h, rfl⟩
  | held i a pending feed hs =>
    refine ⟨quiet_set (fun k pending _ => h k pending) ?_, rfl⟩
    intro hfeed
    exact h i _ (hs.trans (by rw [show feed = .supply false from hfeed]))
  | listed i a left hs => exact ⟨quiet_set (fun k pending _ => h k pending) (by simp), rfl⟩
  | drawn i a supply hs hdraw => exact absurd hs (h i [])
  | closed i supply hs hdraw => exact absurd hs (h i [])
  | wrapped i j found after hs hj hmore ih => exact ih

variable [BEq α]

theorem use (h : n.Quiet) (call : Call α β) :
    (n.use (.stream call)).2.Quiet ∧ (n.use (.stream call)).2.supply = n.supply := by
  apply perform_keeps (P := fun m => m.Quiet ∧ m.supply = n.supply) _ _ call _ ⟨h, rfl⟩
  · intro m i hm
    obtain ⟨hquiet, hsupply⟩ := hm.1.takes (m.takes_next i)
    exact ⟨hquiet, hsupply.trans hm.2⟩
  · intro m i items hm
    exact ⟨hm.1.prepend i items, (supply_prepend m i items).trans hm.2⟩
  · intro i _
    exact ⟨h.attach i, rfl⟩

theorem useAll {n : Network σ α} (h : n.Quiet) (calls : List (Call α β)) :
    (n.useAll (calls.map .stream)).2.supply = n.supply := by
  induction calls generalizing n with
  | nil => rfl
  | cons call calls ih =>
    obtain ⟨hquiet, hsupply⟩ := h.use call
    exact (ih hquiet).trans hsupply

end Quiet

/-- Only the first stream feeds on the supply, and it draws no more once a draw gave nothing. -/
structure Sole (n : Network (Recorder σ α) (Traced α)) : Prop where
  feeds : ∀ i, n.kinds[i]? = some .supply → i = 0
  quiet : none ∈ n.supply.record → n.Quiet

namespace Sole

variable {n : Network (Recorder σ α) (Traced α)}

private theorem start (s : σ) : (single ⟨s, []⟩ : Network (Recorder σ α) (Traced α)).Sole := by
  refine ⟨?_, fun hnone => (List.not_mem_nil hnone).elim⟩
  intro i hi
  obtain ⟨hlt, _⟩ := List.getElem?_eq_some_iff.mp hi
  exact Nat.lt_one_iff.mp hlt

private theorem prepend (h : n.Sole) (i : Nat) (items : List (Traced α)) :
    (n.prepend i items).Sole := by
  refine ⟨?_, ?_⟩
  · rw [kinds_prepend]
    exact h.feeds
  · rw [supply_prepend]
    intro hnone
    exact (h.quiet hnone).prepend i items

private theorem attach (h : n.Sole) (j : Nat) : (n.attach (.stream j)).2.Sole := by
  refine ⟨?_, fun hnone => (h.quiet hnone).attach j⟩
  intro i hi
  rw [kinds_attach, List.getElem?_append] at hi
  split at hi
  · exact h.feeds i hi
  · cases List.mem_singleton.mp (List.mem_of_getElem? hi)

variable [Supply σ α]

private theorem takes (h : n.Sole) {i : Nat} {found : Option (Traced α)}
    {after : Network (Recorder σ α) (Traced α)} (htakes : n.Takes i found after) : after.Sole := by
  refine ⟨by rw [htakes.kinds_eq]; exact h.feeds, ?_⟩
  induction htakes with
  | empty i hempty => exact h.quiet
  | held i a pending feed hs => exact fun hnone => ((h.quiet hnone).takes (.held i a _ _ hs)).1
  | listed i a left hs => exact fun hnone => ((h.quiet hnone).takes (.listed i a left hs)).1
  | drawn i a supply hs hdraw =>
    intro hnone
    have hfound : (Supply.draw n.supply.supply : Option α × σ).1.map Traced.drawn = some a :=
      congrArg Prod.fst hdraw
    have hrecord : supply.record =
        n.supply.record ++ [(Supply.draw n.supply.supply : Option α × σ).1] :=
      (congrArg (fun drawn => drawn.2.record) hdraw).symm
    rcases List.mem_append.mp (hrecord ▸ hnone) with hold | hnew
    · -- Had an earlier draw given nothing, this stream would not have drawn.
      exact absurd hs (h.quiet hold i [])
    · rw [← List.mem_singleton.mp hnew] at hfound
      cases hfound
  | closed i supply hs hdraw =>
    intro _
    refine quiet_set ?_ (by simp)
    intro k pending hk hfeed
    have hi : n.kinds[i]? = some .supply := by
      rw [kinds, List.getElem?_map, hs]
      rfl
    have hk' : n.kinds[k]? = some .supply := by
      rw [kinds, List.getElem?_map, show n.streams[k]? = _ from hfeed]
      rfl
    exact hk ((h.feeds k hk').trans (h.feeds i hi).symm)
  | wrapped i j found after hs hj hmore ih => exact ih

variable [BEq α]

theorem useAll {n : Network (Recorder σ α) (Traced α)} (h : n.Sole)
    (calls : List (Call (Traced α) β)) : (n.useAll (calls.map .stream)).2.Sole := by
  induction calls generalizing n with
  | nil => exact h
  | cons call calls ih =>
    apply ih
    apply perform_keeps _ _ call _ h
    · intro m i hm
      exact hm.takes (m.takes_next i)
    · intro m i items hm
      exact hm.prepend i items
    · intro i _
      exact h.attach i

end Sole
end Network

private theorem Session.performAll_stream {β : Type} (s : Session)
    (calls : List (Network.Call Token β)) :
    s.performAll (calls.map .stream) = ((Network.useAll s (calls.map .stream)).1.map .stream,
      (Network.useAll s (calls.map .stream)).2) := by
  induction calls generalizing s with
  | nil => rfl
  | cons call calls ih =>
    rw [List.map_cons, performAll, ih]
    rfl

/-- The token stream of a scanner that nothing else uses holds items that were put there and behind
them at most one token that it pulled. The scanner answered one call for each token taken through
the stream, one for the token pulled and one for the end, if the stream met it; behind that no call
on the stream, or on streams opened on it, moves the scanner. -/
theorem Session.tokenize_lookahead {β : Type} (s : Scanner) :
    let start : Network (Recorder Scanner Token) (Traced Token) := .single ⟨s, []⟩
    let traced (calls : List (Network.Call Token β)) : List (Network.Use (Traced Token) β) :=
      calls.map fun call => .stream (call.map .given)
    let ran (calls : List (Network.Call Token β)) : Session :=
      ((tokenize s).performAll (calls.map .stream)).2
    (∀ calls, (start.useAll (traced calls)).2.forget = ran calls ∧
      (start.useAll (traced calls)).1.map (.stream <| ·.map Traced.item) =
        ((tokenize s).performAll (calls.map .stream)).1) ∧
    (∀ calls, (∀ call ∈ calls, call.stream = 0) →
      ∃ (front : List Token) (pulled : Option Token) (ended : Bool),
      let after := (start.useAll (traced calls)).2
      let consumed := (start.along Network.taken (traced calls)).filterMap Traced.drawn?
      let k := consumed.length + pulled.toList.length + if ended then 1 else 0
      after.streams[0]? =
        some ⟨front.map .given ++ pulled.toList.map .drawn, .supply ended⟩ ∧
      after.supply.record =
        (consumed ++ pulled.toList).map some ++ (if ended then [none] else []) ∧
      s.performAll (List.replicate k .nextToken) =
        (after.supply.record.map .token, (ran calls).supply)) ∧
    ∀ calls (more : List (Network.Call Token β)),
      none ∈ (start.useAll (traced calls)).2.supply.record →
        ((ran calls).performAll (more.map .stream)).2.supply = (ran calls).supply := by
  intro start traced ran
  have htraced : ∀ calls : List (Network.Call Token β),
      traced calls = (calls.map Network.Use.stream).map (.map .given) := by
    intro calls
    rw [List.map_map]
    rfl
  have hplain : ∀ calls, ((tokenize s).performAll (calls.map .stream)) =
      ((start.useAll (traced calls)).1.map (.stream <| ·.map Traced.item),
        (start.useAll (traced calls)).2.forget) := by
    intro calls
    have hforget := start.useAll_forget (calls.map Network.Use.stream)
    rw [← htraced] at hforget
    rw [performAll_stream, show (tokenize s).useAll (calls.map .stream) = _ from hforget,
      List.map_map]
    rfl
  have hforget : ∀ calls, (start.useAll (traced calls)).2.forget = ran calls := by
    intro calls
    exact (congrArg Prod.snd (hplain calls)).symm
  refine ⟨fun calls => ⟨hforget calls, (congrArg Prod.fst (hplain calls)).symm⟩, ?_, ?_⟩
  · intro calls hcalls
    obtain ⟨front, pulled, ended, hstream, hrecord⟩ :=
      (Network.LooksAhead.start s).useAll calls hcalls
    refine ⟨front, pulled, ended, ?_⟩
    intro after consumed k
    -- The record has an entry for each call that the scanner answered.
    have hlength : after.supply.record.length = k := by
      rw [hrecord, List.length_append, List.length_map, List.length_append]
      cases ended <;> rfl
    have hsince : Recorder.Since s after.supply :=
      Network.useAll_supply_keeps (fun _ => .draw) _ .start
    have hlone := Scanner.performAll_of_since hsince
    rw [hlength] at hlone
    refine ⟨hstream, hrecord, hlone.trans ?_⟩
    rw [← hforget]
    rfl
  · intro calls more hnone
    have hsole := (Network.Sole.start s).useAll (calls.map (.map .given))
    rw [List.map_map] at hsole
    have hquiet : (ran calls).Quiet := hforget calls ▸ (hsole.quiet hnone).forget
    rw [performAll_stream]
    exact hquiet.useAll more

/-- A token put in front goes first and costs no call. The byte that begins no token ends the stream
before the word behind it. -/
theorem Session.tokenize_lookahead_skip :
    let s := Scanner.ofBytes [0x61, 0x24, 0x62]
    let word := Token.payload .identifier "a"
    let calls : List (Network.Call Token Unit) := [.prepend 0 [word], .next 0, .nonempty 0]
    let more : List (Network.Call Token Unit) := [.wrap 0, .takeAll 1, .next 0]
    let ran (calls : List (Network.Call Token Unit)) : Session :=
      ((tokenize s).performAll (calls.map .stream)).2
    (∀ call ∈ calls, call.stream = 0) ∧
      s.performAll [.nextToken] = ([.token (some word)], (ran calls).supply) ∧
      (ran [.takeAll 0]).supply.cursor.position = 2 ∧
      ((ran [.takeAll 0]).performAll (more.map .stream)).2.supply = (ran [.takeAll 0]).supply := by
  intro s word calls more ran
  have hcalls : ∀ call ∈ calls, call.stream = 0 := by decide
  obtain ⟨_, hahead, hquiet⟩ := tokenize_lookahead (β := Unit) s
  obtain ⟨front, pulled, ended, _, hrecord, hlone⟩ := hahead calls hcalls
  refine ⟨hcalls, ?_, by decide +kernel, hquiet [.takeAll 0] more (by decide +kernel)⟩
  have hgave : ((Network.single ⟨s, []⟩ : Network (Recorder Scanner Token) (Traced Token)).useAll
      (calls.map fun call => .stream (call.map .given))).2.supply.record = [some word] := by
    decide +kernel
  have hlength := congrArg List.length (hgave.symm.trans hrecord)
  rw [List.length_append, List.length_map, List.length_append] at hlength
  rw [hgave] at hlone
  have hone : s.performAll (List.replicate [some word].length .nextToken) =
      ([some word].map .token, (ran calls).supply) := by
    rw [hlength]
    cases ended <;> exact hlone
  exact hone

end ByteLexer
