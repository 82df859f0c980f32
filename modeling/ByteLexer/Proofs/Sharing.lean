import ByteLexer.Proofs.Tracing
import ByteLexer.Proofs.Events
import ByteLexer.Stream.Session
import Mathlib.Algebra.Order.Group.Multiset

/-!
# Sharing one supply

Direct draws and any number of streams may compete for one supply, and streams for each other's
items. Whoever draws, the supply goes on as if it were alone, and each item that it gave or that was
put in front of a stream is either handed out once or still held by a stream.
-/

namespace ByteLexer

variable {σ α β : Type}

def Recorder.drawn (r : Recorder σ α) : List (Traced α) := (r.record.filterMap id).map .drawn

private theorem Recorder.map_item_drawn (r : Recorder σ α) :
    r.drawn.map Traced.item = r.record.filterMap id := by
  rw [drawn, List.map_map]
  exact List.map_id _

section
variable [Supply σ α]

private theorem Recorder.drawn_draw (r : Recorder σ α) :
    (Supply.draw r : Option (Traced α) × Recorder σ α).2.drawn =
      r.drawn ++ (Supply.draw r : Option (Traced α) × Recorder σ α).1.toList := by
  have hitem : ∀ found : Option α,
      ([found].filterMap id).map Traced.drawn = (found.map Traced.drawn).toList := by
    intro found
    cases found <;> rfl
  rw [drawn, drawn]
  refine Eq.trans ?_ (congrArg _ (hitem _))
  rw [← List.map_append, ← List.filterMap_append]
  rfl

private theorem Supply.drain_keeps {P : σ → List α → Prop}
    (hdraw : ∀ s taken, P s taken →
      P (Supply.draw s : Option α × σ).2 (taken ++ (Supply.draw s : Option α × σ).1.toList))
    {s : σ} (h : P s []) : P (Supply.drain s : List α × σ).2 (Supply.drain s : List α × σ).1 := by
  have hall : ∀ taken, P s taken →
      P (Supply.drain s : List α × σ).2 (taken ++ (Supply.drain s : List α × σ).1) := by
    clear h
    fun_induction (Supply.drain s : List α × σ) with
    | case1 s after hcall =>
      intro taken h
      have hafter := hdraw s taken h
      rwa [hcall] at hafter
    | case2 s a after hcall more ih =>
      intro taken h
      have hafter := hdraw s taken h
      rw [hcall] at hafter
      have hmore := ih _ hafter
      rwa [List.append_assoc] at hmore
  exact hall [] h

private theorem Recorder.drawn_drain (r : Recorder σ α) :
    (Supply.drain r : List (Traced α) × Recorder σ α).2.drawn =
      r.drawn ++ (Supply.drain r : List (Traced α) × Recorder σ α).1 := by
  refine Supply.drain_keeps (P := fun (r' : Recorder σ α) (taken : List (Traced α)) =>
    r'.drawn = r.drawn ++ taken) ?_ (List.append_nil _).symm
  intro r' taken h
  rw [r'.drawn_draw, h, List.append_assoc]

/-- What a recorder over `s` comes to by draws. -/
inductive Recorder.Since (s : σ) : Recorder σ α → Prop where
  | start : Since s ⟨s, []⟩
  | draw {r : Recorder σ α} (h : Since s r) :
      Since s (Supply.draw r : Option (Traced α) × Recorder σ α).2

end

namespace Network

section
variable [Supply σ α]

private theorem Takes.supply_keeps {P : σ → Prop}
    (hdraw : ∀ s, P s → P (Supply.draw s : Option α × σ).2) {n after : Network σ α} {i : Nat}
    {found : Option α} (h : n.Takes i found after) (hn : P n.supply) : P after.supply := by
  induction h with
  | empty i h => exact hn
  | held i a pending feed h => exact hn
  | listed i a left h => exact hn
  | drawn i a supply h hsupply =>
    have hkept := hdraw n.supply hn
    rwa [hsupply] at hkept
  | closed i supply h hsupply =>
    have hkept := hdraw n.supply hn
    rwa [hsupply] at hkept
  | wrapped i j found after h hj hmore ih => exact ih

variable [BEq α]

theorem useAll_supply_keeps {P : σ → Prop}
    (hdraw : ∀ s, P s → P (Supply.draw s : Option α × σ).2) {n : Network σ α}
    (uses : List (Use α β)) (h : P n.supply) : P (n.useAll uses).2.supply := by
  induction uses generalizing n with
  | nil => exact h
  | cons u uses ih =>
    apply ih
    cases u with
    | draw => exact hdraw n.supply h
    | drain => exact Supply.drain_keeps (P := fun s _ => P s) (fun s _ hs => hdraw s hs) h
    | attach => exact h
    | stream call =>
      apply perform_keeps (P := fun m => P m.supply) _ _ call _ h
      · intro m i hm
        exact (m.takes_next i).supply_keeps hdraw hm
      · intro m i items hm
        rwa [supply_prepend]
      · intro i _
        exact h

end

private theorem exists_pending_set {n : Network σ α} {i : Nat} {s : Lookahead α}
    (h : n.streams[i]? = some s) : ∃ others : Multiset α,
      (n.pending : Multiset α) = s.pending + others ∧
      ∀ new, ((n.set i new).pending : Multiset α) = new.pending + others := by
  obtain ⟨hi, hget⟩ := List.getElem?_eq_some_iff.mp h
  have hset : ∀ new, ((n.set i new).pending : Multiset α) = new.pending +
      ((n.streams.take i).flatMap (·.pending) ++ (n.streams.drop (i + 1)).flatMap (·.pending) :
        List α) := by
    intro new
    rw [pending, set, List.set_eq_take_append_cons_drop, if_pos hi, List.flatMap_append,
      List.flatMap_cons, ← Multiset.coe_add, ← Multiset.coe_add, ← Multiset.coe_add,
      add_left_comm]
  refine ⟨_, ?_, hset⟩
  have hself : n.set i s = n := by rw [set, ← hget, List.set_getElem_self]
  rw [← hset s, hself]

/-- The account of a traced network: all that was handed out or is held came from the supply or was
put in front of a stream. No stream feeds on a list. -/
structure Balanced (n : Network (Recorder σ α) (Traced α)) (out given : Multiset (Traced α)) :
    Prop where
  unlisted : Feed.Kind.items ∉ n.kinds
  items : out + n.pending = n.supply.drawn + given

namespace Balanced

variable {n : Network (Recorder σ α) (Traced α)} {out given : Multiset (Traced α)}

/-- The account goes on over a change of one stream if what it holds less was handed out or what it
holds more was put in. -/
private theorem set {out' given' : Multiset (Traced α)} (h : n.Balanced out given) {i : Nat}
    {s new : Lookahead (Traced α)} (hs : n.streams[i]? = some s)
    (hfeed : new.feed.kind = s.feed.kind)
    (hitems : out' + new.pending + given = out + s.pending + given') :
    (n.set i new).Balanced out' given' := by
  obtain ⟨others, hbefore, hafter⟩ := exists_pending_set hs
  refine ⟨?_, ?_⟩
  · rw [kinds_set hs hfeed]
    exact h.unlisted
  · have hall := h.items
    rw [hbefore] at hall
    rw [hafter new]
    apply add_right_cancel (b := given)
    calc out' + (new.pending + others) + given
        = out' + new.pending + given + others := by ac_rfl
      _ = out + s.pending + given' + others := by rw [hitems]
      _ = out + (s.pending + others) + given' := by ac_rfl
      _ = n.supply.drawn + given' + given := by rw [hall, add_right_comm]

private theorem prepend (h : n.Balanced out given) {i : Nat} (hi : i < n.streams.length)
    (items : List (Traced α)) : (n.prepend i items).Balanced out (given + items) := by
  have hs : n.streams[i]? = some n.streams[i] := List.getElem?_eq_getElem hi
  rw [prepend_of_some hs]
  refine h.set hs rfl ?_
  rw [← Multiset.coe_add]
  ac_rfl

private theorem putBack {items : List (Traced α)} (h : n.Balanced (out + items) given) {i : Nat}
    (hi : i < n.streams.length) : (n.prepend i items).Balanced out given := by
  have hs : n.streams[i]? = some n.streams[i] := List.getElem?_eq_getElem hi
  rw [prepend_of_some hs]
  refine h.set hs rfl ?_
  rw [← Multiset.coe_add, ← add_assoc out]

private theorem attach (h : n.Balanced out given) (feed : Feed (Traced α))
    (hfeed : feed.kind ≠ .items) : (n.attach feed).2.Balanced out given := by
  have hpending : (n.attach feed).2.pending = n.pending := by
    rw [pending, Network.attach, List.flatMap_append, pending]
    exact List.append_nil _
  refine ⟨?_, by rw [hpending]; exact h.items⟩
  rw [kinds_attach, List.mem_append, not_or, List.mem_singleton]
  exact ⟨h.unlisted, hfeed.symm⟩

private theorem supply (h : n.Balanced out given) {r : Recorder σ α} {taken : List (Traced α)}
    (hdrawn : r.drawn = n.supply.drawn ++ taken) :
    Balanced { n with supply := r } (out + taken) given := by
  refine ⟨h.unlisted, ?_⟩
  rw [hdrawn, ← Multiset.coe_add, add_right_comm _ _ given, ← h.items, add_right_comm]
  rfl

private theorem congr {out' given' : Multiset (Traced α)} (h : n.Balanced out given)
    (hout : out' = out) (hgiven : given' = given) : n.Balanced out' given' := by
  rwa [hout, hgiven]

variable [Supply σ α]

private theorem next (h : n.Balanced out given) (i : Nat) :
    (n.next i).2.Balanced (out + (n.next i).1.toList) given := by
  have htakes := n.takes_next i
  generalize (n.next i).1 = found, (n.next i).2 = after at htakes
  induction htakes with
  | empty i hempty =>
    rw [Option.toList_none, Multiset.coe_nil, add_zero]
    exact h
  | held i a pending feed hs =>
    refine h.set hs rfl ?_
    rw [add_assoc out, Option.toList_some, Multiset.coe_add]
    rfl
  | listed i a left hs =>
    have hkind : Feed.Kind.items ∈ n.kinds :=
      List.mem_map.mpr ⟨_, List.mem_of_getElem? hs, rfl⟩
    exact absurd hkind h.unlisted
  | drawn i a supply hs hdraw =>
    have hdrawn := n.supply.drawn_draw
    rw [hdraw] at hdrawn
    exact h.supply hdrawn
  | closed i supply hs hdraw =>
    have hdrawn := n.supply.drawn_draw
    rw [hdraw, Option.toList_none, List.append_nil] at hdrawn
    have hsame : Balanced { n with supply } out given := ⟨h.unlisted, by rw [hdrawn]; exact h.items⟩
    refine hsame.set hs rfl ?_
    rw [Option.toList_none, Multiset.coe_nil, add_zero]
  | wrapped i j found after hs hj hmore ih => exact ih

private theorem takeThrough (h : n.Balanced out given) (stop : Traced α → Bool) (i : Nat) :
    (n.takeThrough stop i).2.Balanced (out + (n.takeThrough stop i).1) given := by
  have hstart : n.Balanced (out + ([] : List (Traced α))) given := h.congr (add_zero out) rfl
  refine takeThrough_keeps
    (P := fun m (taken : List (Traced α)) => m.Balanced (out + taken) given) ?_ stop hstart
  intro m taken hm
  rw [← Multiset.coe_add, ← add_assoc]
  exact hm.next i

private theorem peek (h : n.Balanced out given) (i : Nat) : (n.peek i).2.Balanced out given := by
  rw [peek_eq]
  by_cases hi : i < n.streams.length
  · have hlength : i < (n.next i).2.streams.length := by rwa [length_streams_next]
    exact (h.next i).putBack hlength
  · have hs : n.streams[i]? = none := List.getElem?_eq_none (Nat.le_of_not_lt hi)
    have hnext : n.next i = (none, n) := by rw [Network.next, hs]
    rw [hnext, prepend_of_none hs]
    exact h

variable [BEq α]

/-- What a use takes was held or drawn before, and what it puts in is held behind it. -/
theorem use (h : n.Balanced out given) (u : Use (Traced α) β) :
    (n.use u).2.Balanced (out + n.taken u) (given + n.prepended u) := by
  -- Looking ahead and opening streams hand nothing out and put nothing in.
  have hsame : ∀ {after : Network (Recorder σ α) (Traced α)}, after.Balanced out given →
      after.Balanced (out + ([] : List (Traced α))) (given + ([] : List (Traced α))) :=
    fun hafter => hafter.congr (add_zero out) (add_zero given)
  cases u with
  | draw =>
    rw [taken_draw]
    exact (h.supply n.supply.drawn_draw).congr rfl (add_zero given)
  | drain =>
    rw [taken_drain]
    exact (h.supply n.supply.drawn_drain).congr rfl (add_zero given)
  | attach => exact hsame (h.attach (.supply false) (by intro hkind; cases hkind))
  | stream call =>
    cases call with
    | peek i fallback => exact hsame (h.peek i)
    | next i =>
      rw [taken_next]
      exact (h.next i).congr rfl (add_zero given)
    | prepend i items =>
      rw [prepended, Call.prepended]
      split
      · rename_i hi
        exact (h.prepend hi items).congr (add_zero out) rfl
      · rename_i hi
        have hnone : (n.use (.stream (.prepend i items) : Use (Traced α) β)).2 = n :=
          prepend_of_length_le (Nat.le_of_not_lt hi) items
        rw [hnone]
        exact hsame h
    | nonempty i => exact hsame (h.peek i)
    | takeAll i =>
      rw [taken_takeAll]
      exact (h.takeThrough _ i).congr rfl (add_zero given)
    | contains i item =>
      rw [taken_contains]
      exact (h.takeThrough _ i).congr rfl (add_zero given)
    | wrap i => exact hsame (h.attach (.stream i) (by intro hkind; cases hkind))

theorem useAll {n : Network (Recorder σ α) (Traced α)} {out given : Multiset (Traced α)}
    (h : n.Balanced out given) (uses : List (Use (Traced α) β)) :
    (n.useAll uses).2.Balanced (out + n.along taken uses) (given + n.along prepended uses) := by
  induction uses generalizing n out given with
  | nil => exact h.congr (add_zero out) (add_zero given)
  | cons u uses ih =>
    refine (ih (h.use u)).congr ?_ ?_
    · rw [along, ← Multiset.coe_add, add_assoc]
    · rw [along, ← Multiset.coe_add, add_assoc]

end Balanced

/-- The same account without the origins, from the start on. -/
theorem perm_useAll [Supply σ α] [BEq α] (s : σ) (uses : List (Use α β)) :
    let start : Network σ α := ofSupply s
    let traced := ((ofSupply ⟨s, []⟩ : Network (Recorder σ α) (Traced α)).useAll
      (uses.map (.map .given))).2
    (start.along taken uses ++ (start.useAll uses).2.pending).Perm
      (traced.supply.record.filterMap id ++ start.along prepended uses) := by
  intro start traced
  let first : Network (Recorder σ α) (Traced α) := ofSupply ⟨s, []⟩
  have hfirst : first.Balanced 0 0 := ⟨List.not_mem_nil, rfl⟩
  have hall := (hfirst.useAll (uses.map (.map .given))).items
  rw [zero_add, zero_add, Multiset.coe_add, Multiset.coe_add, Multiset.coe_eq_coe] at hall
  have hplain := hall.map Traced.item
  have hlast : (start.useAll uses).2 = traced.forget := congrArg Prod.snd (first.useAll_forget uses)
  rw [List.map_append, List.map_append, ← along_forget taken_forget, ← pending_forget,
    ← along_forget prepended_forget, Recorder.map_item_drawn] at hplain
  rw [hlast]
  exact hplain

/-- All that is taken is what the replies hand out and what searches go past. -/
private theorem perm_along_taken [Supply σ α] [BEq α] (n : Network σ α) (uses : List (Use α β)) :
    (n.along taken uses).Perm
      ((List.zipWith Use.handedOut uses (n.useAll uses).1).flatten ++ n.along passed uses) := by
  induction uses generalizing n with
  | nil => exact .nil
  | cons u uses ih =>
    let handed := u.handedOut (n.use u).1
    let more := (List.zipWith Use.handedOut uses ((n.use u).2.useAll uses).1).flatten
    have hsort : (handed ++ n.passed u ++ (more ++ (n.use u).2.along passed uses)).Perm
        (handed ++ more ++ (n.passed u ++ (n.use u).2.along passed uses)) := by
      rw [List.append_assoc, List.append_assoc]
      exact (List.perm_append_comm_assoc _ _ _).append_left _
    exact ((ih (n.use u).2).append_left _).trans hsort

end Network

namespace Scanner

private theorem tokens_eq_drain (s : Scanner) : s.tokens = Supply.drain s := by
  cases hcall : s.nextToken.1 with
  | none => rw [tokens_of_none hcall, Supply.drain_of_none hcall]; rfl
  | some t =>
    rw [tokens_of_some hcall, Supply.drain_of_some hcall, tokens_eq_drain s.nextToken.2]
    rfl
termination_by s.cursor.rest.length
decreasing_by exact length_lt_of_nextToken (Prod.ext hcall rfl)

private theorem performAll_append (s : Scanner) (calls more : List Call) :
    s.performAll (calls ++ more) =
      ((s.performAll calls).1 ++ ((s.performAll calls).2.performAll more).1,
        ((s.performAll calls).2.performAll more).2) := by
  induction calls generalizing s with
  | nil => rfl
  | cons call calls ih =>
    rw [List.cons_append, performAll, performAll, ih]
    rfl

/-- The record of a shared scanner is what a lone one answers. -/
theorem performAll_of_since {s : Scanner} {r : Recorder Scanner Token} (h : Recorder.Since s r) :
    s.performAll (List.replicate r.record.length .nextToken) =
      (r.record.map .token, r.supply) := by
  induction h with
  | start => rfl
  | @draw r h ih =>
    have hrecord : (Supply.draw r : Option (Traced Token) × Recorder Scanner Token).2.record =
        r.record ++ [r.supply.nextToken.1] := rfl
    rw [hrecord, List.length_append, List.length_singleton, List.replicate_succ',
      performAll_append, ih, List.map_append]
    rfl

end Scanner

namespace Session

theorem perform_ofUse {β : Type} (s : Session) (u : Network.Use Token β) :
    (s.perform (.ofUse u)).2 = (s.use u).2 ∧
      (Call.ofUse u).handedOut (s.perform (.ofUse u)).1 = u.handedOut (s.use u).1 := by
  cases u with
  | draw =>
    refine ⟨rfl, ?_⟩
    have hreply : (s.use (.draw : Network.Use Token β)).1 = .ofItem? s.supply.nextToken.1 := rfl
    rw [hreply]
    cases hfound : s.supply.nextToken.1 <;> exact congrArg Option.toList hfound
  | drain =>
    have hdrain := s.supply.tokens_eq_drain
    exact ⟨congrArg (fun drained => { s with supply := drained.2 }) hdrain,
      congrArg Prod.fst hdrain⟩
  | attach => exact ⟨rfl, rfl⟩
  | stream call => exact ⟨rfl, rfl⟩

theorem performAll_ofUse {β : Type} (s : Session) (uses : List (Network.Use Token β)) :
    (s.performAll (uses.map .ofUse)).2 = (s.useAll uses).2 ∧
      List.zipWith Call.handedOut (uses.map .ofUse) (s.performAll (uses.map .ofUse)).1 =
        List.zipWith Network.Use.handedOut uses (s.useAll uses).1 := by
  induction uses generalizing s with
  | nil => exact ⟨rfl, rfl⟩
  | cons u uses ih =>
    obtain ⟨hstate, hhanded⟩ := s.perform_ofUse u
    obtain ⟨hlast, hmore⟩ := ih (s.perform (.ofUse u)).2
    rw [hstate] at hlast hmore
    rw [List.map_cons, performAll, Network.useAll, List.zipWith_cons_cons, List.zipWith_cons_cons,
      hhanded, hstate, hlast, hmore]
    exact ⟨rfl, rfl⟩

private theorem along_ofUse {β : Type} {items : Session → Call β → List Token}
    {plain : Session → Network.Use Token β → List Token}
    (h : ∀ s u, items s (.ofUse u) = plain s u) (s : Session)
    (uses : List (Network.Use Token β)) :
    s.along items (uses.map .ofUse) = Network.along plain s uses := by
  induction uses generalizing s with
  | nil => rfl
  | cons u uses ih => rw [List.map_cons, along, Network.along, h, ih, (s.perform_ofUse u).1]

/-- However direct calls and streams compete for a scanner, its answers are those of a lone scanner,
and each of its tokens and of the tokens put in front of a stream is in one reply, gone past by one
search or still held by one stream. -/
theorem shared_conserves {β : Type} (source : List UInt8) (uses : List (Network.Use Token β)) :
    let start := ofBytes source
    let calls : List (Call β) := uses.map .ofUse
    let replies := (start.performAll calls).1
    let ran := (start.performAll calls).2
    let traced := ((Network.ofSupply ⟨.ofBytes source, []⟩ :
      Network (Recorder Scanner Token) (Traced Token)).useAll (uses.map (.map .given))).2
    let record := traced.supply.record
    let handedOut := (List.zipWith Call.handedOut calls replies).flatten
    traced.forget = ran ∧
    (Scanner.ofBytes source).performAll (List.replicate record.length .nextToken) =
      (record.map .token, ran.supply) ∧
    (handedOut ++ start.along passed calls ++ ran.pending).Perm
      (record.filterMap id ++ start.along prepended calls) := by
  intro start calls replies ran traced record handedOut
  obtain ⟨hran, hhanded⟩ := start.performAll_ofUse uses
  have hforget : traced.forget = ran := by
    have hplain := Network.useAll_forget (.ofSupply ⟨Scanner.ofBytes source, []⟩) uses
    exact (hran.trans (congrArg Prod.snd hplain)).symm
  have hsince : Recorder.Since (Scanner.ofBytes source) traced.supply :=
    Network.useAll_supply_keeps (fun _ => .draw) _ .start
  refine ⟨hforget, ?_, ?_⟩
  · rw [Scanner.performAll_of_since hsince, ← hforget]
    rfl
  · -- The account is kept of all that is taken, and replies and searches make this up.
    have htaken : (Network.along Network.taken start uses).Perm
        (handedOut ++ start.along passed calls) := by
      have hpassed : ∀ (s : Session) (u : Network.Use Token β),
          s.passed (.ofUse u) = Network.passed s u := by
        intro s u
        cases u <;> rfl
      have hall := Network.perm_along_taken start uses
      rwa [← hhanded, ← along_ofUse hpassed] at hall
    have hprepended : ∀ (s : Session) (u : Network.Use Token β),
        s.prepended (.ofUse u) = Network.prepended s u := by
      intro s u
      cases u <;> rfl
    rw [show ran = (Network.useAll start uses).2 from hran, along_ofUse hprepended]
    exact (htaken.symm.append_right _).trans (Network.perm_useAll (Scanner.ofBytes source) uses)

end Session
end ByteLexer
