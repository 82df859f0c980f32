import ByteLexer.Proofs.Ending
import ByteLexer.Proofs.PlainList
import ByteLexer.Stream.Session

/-!
# Going on behind skipped bytes

A skipped byte cuts its source: the bytes before it are scanned as if the source ended there, those
behind it as a source of their own. So reading tokens up to a call that gives none, again and again,
gives the tokens of one segment after the other.
-/

namespace ByteLexer

private theorem filterMap_skip?_map_shift (n : Nat) (found : List Event) :
    (found.map (Event.shift n)).filterMap Event.skip? =
      (found.filterMap Event.skip?).map (· + n) := by
  rw [List.filterMap_map, List.map_filterMap]
  exact congrArg (List.filterMap · found) (funext fun e => e.skip?_shift n)

@[simp] private theorem skips_nil : skips [] = [] := by
  rw [skips, events_nil]
  rfl

private theorem skips_blanks_append {blanks : List UInt8} (h : ∀ b ∈ blanks, isBlank b = true)
    (rest : List UInt8) : skips (blanks ++ rest) = (skips rest).map (· + blanks.length) := by
  rw [skips, events_blanks_append h, filterMap_skip?_map_shift, skips]

private theorem skips_skipped_cons {b : UInt8} (hlead : Lead.ofByte? b = none)
    (hblank : isBlank b = false) (after : List UInt8) :
    skips (b :: after) = 0 :: (skips after).map (· + 1) := by
  rw [skips, events_skipped_cons hlead hblank,
    List.filterMap_cons_some (show (Event.skipped 0 b).skip? = some 0 from rfl),
    filterMap_skip?_map_shift, skips]

private theorem skips_lead_cons {b : UInt8} {lead : Lead} (hlead : Lead.ofByte? b = some lead)
    (after : List UInt8) : skips (b :: after) =
      (skips (after.drop (lead.reach after))).map (· + (lead.reach after + 1)) := by
  rw [skips, events_lead_cons hlead, List.filterMap_cons_none (by rfl), filterMap_skip?_map_shift,
    skips]

private theorem skips_pairwise_lt (source : List UInt8) : (skips source).Pairwise (· < ·) := by
  have hshift : ∀ {places : List Nat} (n : Nat), places.Pairwise (· < ·) →
      (places.map (· + n)).Pairwise (· < ·) := fun n h =>
    h.map _ fun _ _ hlt => Nat.add_lt_add_right hlt n
  induction source using source_induction with
  | nil =>
    rw [skips_nil]
    exact List.Pairwise.nil
  | blank b after hblank ih =>
    have hskips : skips ([b] ++ after) = (skips after).map (· + 1) :=
      skips_blanks_append (by simpa using hblank) after
    exact hskips ▸ hshift 1 ih
  | skipped b after hlead hblank ih =>
    rw [skips_skipped_cons hlead hblank]
    refine List.Pairwise.cons ?_ (hshift 1 ih)
    intro p hp
    obtain ⟨q, _, rfl⟩ := List.mem_map.mp hp
    exact Nat.zero_lt_succ q
  | token b after lead hlead ih =>
    rw [skips_lead_cons hlead]
    exact hshift _ ih

/-- The source falls apart at its first skipped byte `b`. -/
structure CutAt (source front : List UInt8) (b : UInt8) (rest : List UInt8) : Prop where
  source_eq : source = front ++ b :: rest
  skips_front : skips front = []
  events_eq : events source = events front ++
    .skipped front.length b :: (events rest).map (Event.shift (front.length + 1))

private theorem CutAt.prepend {source front rest : List UInt8} {b : UInt8}
    (h : CutAt source front b rest) (lead : List UInt8) (found : List Event)
    (hskips : skips (lead ++ front) = (skips front).map (· + lead.length))
    (hsource : events (lead ++ source) = found ++ (events source).map (Event.shift lead.length))
    (hfront : events (lead ++ front) = found ++ (events front).map (Event.shift lead.length)) :
    CutAt (lead ++ source) (lead ++ front) b rest := by
  refine ⟨?_, ?_, ?_⟩
  · rw [h.source_eq, List.append_assoc]
  · rw [hskips, h.skips_front]
    rfl
  · rw [hsource, hfront, h.events_eq, List.map_append, List.map_cons, Event.map_shift_map_shift,
      List.length_append, List.append_assoc, Event.shift, Nat.add_comm lead.length,
      Nat.add_right_comm]

private theorem CutAt.prepend_lead {b c : UInt8} {lead : Lead} {after front rest : List UInt8}
    (hlead : Lead.ofByte? b = some lead) (h : CutAt (after.drop (lead.reach after)) front c rest) :
    CutAt (b :: after) (b :: after.take (lead.reach after) ++ front) c rest := by
  have hlength := lead.length_take_reach after
  -- Before the front alone the token stops where it does before all that is left.
  have hreach : lead.reach (after.take (lead.reach after) ++ front) = lead.reach after := by
    apply Lead.reach_take_append
    intro d hd
    rw [h.source_eq, List.head?_append, hd, Option.some_or]
  have hskips := skips_lead_cons hlead (after.take (lead.reach after) ++ front)
  rw [hreach, List.drop_left' hlength] at hskips
  have hsource := events_lead_cons hlead after
  have hfront := events_lead_append hlead (hreach.trans hlength.symm)
  rw [hlength] at hfront
  have hlong := h.prepend (b :: after.take (lead.reach after))
    [.token 0 (lead.reach after + 1)
      (lead.token (lead.reach after) (b :: after.take (lead.reach after)))]
    (by rwa [List.length_cons, hlength])
    (by rwa [List.cons_append, List.take_append_drop, List.length_cons, hlength])
    (by rwa [List.length_cons, hlength])
  rwa [List.cons_append, List.take_append_drop] at hlong

private theorem skips_eq_nil_or_cutAt (source : List UInt8) :
    skips source = [] ∨ ∃ front b rest, CutAt source front b rest := by
  induction source using source_induction with
  | nil => exact Or.inl skips_nil
  | blank b after hblank ih =>
    have hskips : ∀ rest, skips ([b] ++ rest) = (skips rest).map (· + 1) :=
      skips_blanks_append (by simpa using hblank)
    rcases ih with hnil | ⟨front, c, rest, hcut⟩
    · refine Or.inl ((hskips after).trans ?_)
      rw [hnil]
      rfl
    · have hlong := hcut.prepend [b] [] (hskips front) (events_blank_cons hblank after)
        (events_blank_cons hblank front)
      exact Or.inr ⟨b :: front, c, rest, hlong⟩
  | skipped b after hlead hblank ih =>
    refine Or.inr ⟨[], b, after, rfl, skips_nil, ?_⟩
    rw [events_nil]
    exact events_skipped_cons hlead hblank after
  | token b after lead hlead ih =>
    rcases ih with hnil | ⟨front, c, rest, hcut⟩
    · refine Or.inl ?_
      rw [skips_lead_cons hlead, hnil]
      rfl
    · exact Or.inr ⟨_, c, rest, hcut.prepend_lead hlead⟩

private theorem leadingTokens_append_skipped (found more : List Event) (offset : Nat) (b : UInt8) :
    Event.leadingTokens (found ++ .skipped offset b :: more) = Event.leadingTokens found := by
  induction found with
  | nil => rfl
  | cons e found ih =>
    cases e with
    | token start stop t => exact congrArg (t :: ·) ih
    | skipped offset byte => rfl

private theorem tokensOf_eq_allTokens {source : List UInt8} (h : skips source = []) :
    tokensOf source = allTokens source := by
  have hall : ∀ found : List Event, found.filterMap Event.skip? = [] →
      Event.leadingTokens found = found.filterMap Event.token? := by
    intro found hfound
    induction found with
    | nil => rfl
    | cons e found ih =>
      cases e with
      | token start stop t => exact congrArg (t :: ·) (ih hfound)
      | skipped offset byte => cases hfound
  rw [tokensOf_eq_leadingTokens, allTokens_eq_filterMap, hall _ h]

private theorem pieces_append (front rest : List UInt8) (start : Nat) (places : List Nat) :
    pieces (front ++ rest) (start + front.length) (places.map (· + front.length)) =
      pieces rest start places := by
  induction places generalizing start with
  | nil => exact congrArg ([·]) (drop_add_length_append front rest start)
  | cons p places ih =>
    rw [List.map_cons, pieces, pieces, take_add_length_append, Nat.add_comm start,
      List.drop_length_add_append, Nat.add_right_comm, ih]

namespace CutAt

variable {source front rest : List UInt8} {b : UInt8}

private theorem skips_eq (h : CutAt source front b rest) :
    skips source = front.length :: (skips rest).map (· + (front.length + 1)) := by
  have hfront : (events front).filterMap Event.skip? = [] := h.skips_front
  rw [skips, h.events_eq, List.filterMap_append, hfront, List.nil_append,
    List.filterMap_cons_some (show Event.skip? _ = some front.length from rfl),
    filterMap_skip?_map_shift, skips]

private theorem segments_eq (h : CutAt source front b rest) :
    segments source = front :: segments rest := by
  have hlength : (front ++ [b]).length = front.length + 1 := List.length_append
  have hmore := pieces_append (front ++ [b]) rest 0 (skips rest)
  rw [hlength, Nat.zero_add, List.append_assoc, List.singleton_append, ← h.source_eq] at hmore
  rw [segments, h.skips_eq, pieces, hmore, h.source_eq, List.take_left, List.drop_zero, segments]

private theorem tokensOf_eq (h : CutAt source front b rest) : tokensOf source = tokensOf front := by
  rw [tokensOf_eq_leadingTokens, tokensOf_eq_leadingTokens, h.events_eq,
    leadingTokens_append_skipped]

private theorem allTokens_eq (h : CutAt source front b rest) :
    allTokens source = tokensOf source ++ allTokens rest := by
  rw [h.tokensOf_eq, tokensOf_eq_allTokens h.skips_front, allTokens_eq_filterMap,
    allTokens_eq_filterMap, allTokens_eq_filterMap, h.events_eq, List.filterMap_append,
    List.filterMap_cons_none (by rfl), Event.filterMap_token?_map_shift]

end CutAt

namespace Scanner

theorem tokens_fst (s : Scanner) : s.tokens.1 = tokensOf s.cursor.rest := by
  rw [tokens_eq_leadingTokens (s := ofBytes s.cursor.rest) s.cursor.shifted_ofBytes,
    tokensOf_eq_leadingTokens, events]

/-- Reading up to a call that gives no token ends right behind the first skipped byte, or past the
end if no byte is skipped. -/
private theorem cursor_tokens_of_skips (s : Scanner) :
    (skips s.cursor.rest = [] → s.tokens.2.cursor.rest = []) ∧
    ∀ p places, skips s.cursor.rest = p :: places →
      s.tokens.2.cursor = s.cursor.advanceBy (p + 1) := by
  have hskips : skips s.cursor.rest = (skips s.cursor.unread).map (· + s.cursor.blanks.length) := by
    rw [← s.cursor.blanks_append_unread]
    exact skips_blanks_append (fun b hb => Cursor.isBlank_of_mem_blanks hb) _
  rw [hskips]
  cases hunread : s.cursor.unread with
  | nil =>
    rw [tokens_of_none (congrArg Prod.fst (nextToken_of_ended hunread)), skips_nil]
    exact ⟨fun _ => rest_nextToken_of_ended hunread, fun p places h => by cases h⟩
  | cons b after =>
    cases hlead : Lead.ofByte? b with
    | none =>
      have hcall := nextToken_of_skipped hunread hlead
      rw [tokens_of_none (congrArg Prod.fst hcall), hcall,
        skips_skipped_cons hlead (Cursor.not_isBlank_of_unread hunread)]
      refine ⟨fun h => (by cases h), ?_⟩
      intro p places h
      obtain ⟨hp, _⟩ := List.cons.inj h
      rw [← (Nat.zero_add _).symm.trans hp]
      rfl
    | some lead =>
      have hcall := nextToken_of_lead hunread hlead
      have hfound := congrArg Prod.fst hcall
      have hcursor : s.nextToken.2.cursor =
          s.cursor.advanceBy (s.cursor.blanks.length + (lead.reach after + 1)) :=
        congrArg (fun called => called.2.cursor) hcall
      have hrest := rest_nextToken_of_lead hunread hlead
      -- What is skipped behind the token is skipped in the rest, further on by the bytes passed.
      obtain ⟨hend, hskip⟩ := cursor_tokens_of_skips s.nextToken.2
      rw [hrest] at hend hskip
      rw [tokens_of_some hfound, skips_lead_cons hlead, List.map_map]
      refine ⟨fun h => hend (List.map_eq_nil_iff.mp h), ?_⟩
      intro p places h
      obtain ⟨q, more, hq, rfl, _⟩ := List.map_eq_cons_iff.mp h
      rw [hskip q more hq, hcursor, Cursor.advanceBy_advanceBy]
      congr 1
      simp only [Function.comp_apply]
      omega
termination_by s.cursor.rest.length
decreasing_by exact length_lt_of_nextToken (Prod.ext hfound rfl)

private theorem cursor_tokens_of_cutAt {s : Scanner} {front rest : List UInt8} {b : UInt8}
    (h : CutAt s.cursor.rest front b rest) :
    s.tokens.2.cursor = s.cursor.advanceBy (front.length + 1) ∧
      s.tokens.2.cursor.rest = rest := by
  have hcursor := s.cursor_tokens_of_skips.2 _ _ h.skips_eq
  refine ⟨hcursor, ?_⟩
  rw [hcursor, Cursor.rest_advanceBy, h.source_eq, List.drop_length_add_append]
  rfl

/-- The scanner once its tokens up to a call that gives none were read `k` times. -/
def afterTokens (s : Scanner) (k : Nat) : Scanner :=
  (s.performAll (List.replicate k .tokens)).2

private theorem afterTokens_succ (s : Scanner) (k : Nat) :
    s.afterTokens (k + 1) = s.tokens.2.afterTokens k := rfl

/-- Reading all tokens again and again gives those of one segment after the other. -/
theorem tokens_afterTokens {s : Scanner} {k : Nat} {segment : List UInt8}
    (h : (segments s.cursor.rest)[k]? = some segment) :
    (s.afterTokens k).tokens.1 = tokensOf segment := by
  induction k generalizing s with
  | zero =>
    rcases skips_eq_nil_or_cutAt s.cursor.rest with hnil | ⟨front, b, rest, hcut⟩
    · rw [segments, hnil] at h
      cases h
      exact s.tokens_fst
    · rw [hcut.segments_eq] at h
      cases h
      exact s.tokens_fst.trans hcut.tokensOf_eq
  | succ k ih =>
    rcases skips_eq_nil_or_cutAt s.cursor.rest with hnil | ⟨front, b, rest, hcut⟩
    · rw [segments, hnil] at h
      cases h
    · rw [hcut.segments_eq, List.getElem?_cons_succ] at h
      rw [afterTokens_succ]
      apply ih
      rwa [(cursor_tokens_of_cutAt hcut).2]

private theorem cursor_afterTokens {s : Scanner} {k p : Nat}
    (h : (skips s.cursor.rest)[k]? = some p) :
    (s.afterTokens (k + 1)).cursor = s.cursor.advanceBy (p + 1) := by
  induction k generalizing s p with
  | zero =>
    obtain ⟨places, hplaces⟩ := List.head?_eq_some_iff.mp (List.head?_eq_getElem?.trans h)
    exact s.cursor_tokens_of_skips.2 p places hplaces
  | succ k ih =>
    rcases skips_eq_nil_or_cutAt s.cursor.rest with hnil | ⟨front, b, rest, hcut⟩
    · rw [hnil] at h
      cases h
    · obtain ⟨hcursor, hrest⟩ := cursor_tokens_of_cutAt hcut
      rw [hcut.skips_eq, List.getElem?_cons_succ, List.getElem?_map] at h
      obtain ⟨q, hq, rfl⟩ := Option.map_eq_some_iff.mp h
      rw [afterTokens_succ, ih (by rwa [hrest]), hcursor, Cursor.advanceBy_advanceBy]
      congr 1
      omega

private theorem rest_afterTokens {s : Scanner} {k : Nat} (h : (skips s.cursor.rest).length ≤ k) :
    (s.afterTokens (k + 1)).cursor.rest = [] := by
  induction k generalizing s with
  | zero => exact s.cursor_tokens_of_skips.1 (List.length_eq_zero_iff.mp (Nat.le_zero.mp h))
  | succ k ih =>
    rw [afterTokens_succ]
    apply ih
    rcases skips_eq_nil_or_cutAt s.cursor.rest with hnil | ⟨front, b, rest, hcut⟩
    · rw [s.cursor_tokens_of_skips.1 hnil, skips_nil]
      exact Nat.zero_le k
    · rw [hcut.skips_eq, List.length_cons, List.length_map] at h
      rw [(cursor_tokens_of_cutAt hcut).2]
      exact Nat.le_of_succ_le_succ h

end Scanner

private theorem length_segments (source : List UInt8) :
    (segments source).length = (skips source).length + 1 := by
  rw [segments]
  generalize skips source = places, 0 = start
  induction places generalizing start with
  | nil => rfl
  | cons p places ih => exact congrArg (· + 1) (ih (p + 1))

private theorem Event.start_lt_length {source : List UInt8} {e : Event} (h : e ∈ events source) :
    e.start < source.length := by
  have hshift : ∀ {n : Nat} {rest : List UInt8} {e : Event},
      e ∈ (events rest).map (Event.shift n) → (∀ e' ∈ events rest, e'.start < rest.length) →
      e.start < rest.length + n := by
    intro n rest e he hrest
    obtain ⟨e', he', rfl⟩ := List.mem_map.mp he
    have hlt := hrest e' he'
    cases e' <;> exact Nat.add_lt_add_right hlt n
  induction source using source_induction generalizing e with
  | nil =>
    rw [events_nil] at h
    cases h
  | blank b after hblank ih =>
    rw [events_blank_cons hblank] at h
    exact hshift h fun e' he' => ih he'
  | skipped b after hlead hblank ih =>
    rw [events_skipped_cons hlead hblank] at h
    rcases List.mem_cons.mp h with rfl | h
    · exact Nat.zero_lt_succ _
    · exact hshift h fun e' he' => ih he'
  | token b after lead hlead ih =>
    rw [events_lead_cons hlead] at h
    rcases List.mem_cons.mp h with rfl | h
    · exact Nat.zero_lt_succ _
    · have hlt := hshift h fun e' he' => ih he'
      have hle := lead.reach_le_length after
      rw [List.length_drop] at hlt
      rw [List.length_cons]
      omega

/-- Reading up to the first skipped byte gives all tokens exactly if none begins behind it. -/
theorem tokensOf_eq_allTokens_iff (source : List UInt8) :
    tokensOf source = allTokens source ↔ ∀ p, (skips source).head? = some p →
      ∀ start stop t, .token start stop t ∈ events source → start < p := by
  rcases skips_eq_nil_or_cutAt source with hnil | ⟨front, b, rest, hcut⟩
  · rw [hnil]
    exact ⟨fun _ p h => (by cases h), fun _ => tokensOf_eq_allTokens hnil⟩
  · rw [hcut.allTokens_eq, List.self_eq_append_right, hcut.skips_eq, hcut.events_eq,
      allTokens_eq_filterMap, List.filterMap_eq_nil_iff]
    constructor
    · intro hnone p hp start stop t ht
      cases hp
      rcases List.mem_append.mp ht with hfront | hmore
      · exact Event.start_lt_length hfront
      · obtain ⟨e, he, heq⟩ := List.mem_map.mp ((List.mem_cons.mp hmore).resolve_left (by simp))
        have htoken := hnone e he
        rw [← e.token?_shift, heq] at htoken
        cases htoken
    · intro hbefore e he
      cases e with
      | skipped offset byte => rfl
      | token start stop t =>
        have hmem : (Event.token start stop t).shift (front.length + 1) ∈
            (events rest).map (Event.shift (front.length + 1)) := List.mem_map_of_mem he
        have hlt := hbefore front.length rfl _ _ _
          (List.mem_append_right _ (List.mem_cons_of_mem _ hmem))
        omega

private theorem Scanner.toList_eq_tokens (s : Scanner) :
    (Supply.toList s : List Token) = s.tokens.1 := by
  cases hcall : s.nextToken.1 with
  | none => rw [Supply.toList_of_draw_none (Prod.ext hcall rfl), tokens_of_none hcall]
  | some t =>
    rw [Supply.toList_of_draw (Prod.ext hcall rfl), tokens_of_some hcall]
    exact congrArg (t :: ·) (toList_eq_tokens s.nextToken.2)
termination_by s.cursor.rest.length
decreasing_by exact length_lt_of_nextToken (Prod.ext hcall rfl)

theorem Session.takeAll_tokenize (s : Scanner) :
    (Network.takeAll (tokenize s) 0).1 = s.tokens.1 := by
  have hcontent : (tokenize s).content 0 = Supply.toList s :=
    Network.content_eq (s := ⟨[], .supply false⟩) rfl
  rw [Network.takeAll_eq_content, hcontent, s.toList_eq_tokens]

/-- Calls that read all tokens of a scanner up to one that gives none go from segment to segment:
each gives the tokens of its segment as a source of its own and ends behind the skipped byte there,
or past the end behind the last segment, where nothing is left for later calls. A stream of the
tokens ends with the first segment, which is all if no token begins behind it. -/
theorem Scanner.tokens_resume (source : List UInt8) :
    let after (k : Nat) : Scanner :=
      ((ofBytes source).performAll (List.replicate k .tokens)).2
    let streamed := (Network.takeAll (Session.tokenize (ofBytes source)) 0).1
    (skips source).Pairwise (· < ·) ∧ (segments source).length = (skips source).length + 1 ∧
    (∀ k segment, (segments source)[k]? = some segment →
      (after k).tokens.1 = tokensOf segment) ∧
    (∀ k p, (skips source)[k]? = some p → (after (k + 1)).cursor.position = p + 1) ∧
    (∀ k, (skips source).length ≤ k →
      (after (k + 1)).cursor.current = none ∧ (after (k + 1)).tokens.1 = []) ∧
    streamed = tokensOf (source.take ((skips source).headD source.length)) ∧
    (streamed = allTokens source ↔ ∀ p, (skips source).head? = some p →
      ∀ start stop t, .token start stop t ∈ events source → start < p) := by
  intro after streamed
  have hstreamed : streamed = tokensOf source := Session.takeAll_tokenize (ofBytes source)
  have hafter : after = (ofBytes source).afterTokens := rfl
  refine ⟨skips_pairwise_lt source, length_segments source, ?_, ?_, ?_, ?_, ?_⟩
  · intro k segment hsegment
    exact tokens_afterTokens hsegment
  · intro k p hp
    rw [hafter, cursor_afterTokens hp, Cursor.position_advanceBy]
    exact Nat.zero_add _
  · intro k hk
    have hrest : (after (k + 1)).cursor.rest = [] := rest_afterTokens hk
    refine ⟨congrArg List.head? hrest, ?_⟩
    rw [tokens_fst, hrest, tokensOf_nil]
  · rw [hstreamed]
    rcases skips_eq_nil_or_cutAt source with hnil | ⟨front, b, rest, hcut⟩
    · rw [hnil, List.headD_nil, List.take_length]
    · rw [hcut.tokensOf_eq, hcut.skips_eq, List.headD_cons, hcut.source_eq, List.take_left]
  · rw [hstreamed]
    exact tokensOf_eq_allTokens_iff source

/-- A second dot is skipped, as it is no part of the number before it. -/
theorem Scanner.tokens_resume_dot :
    let source : List UInt8 := [0x61, 0x24, 0x31, 0x2E, 0x2E, 0x62]
    let after (k : Nat) : Scanner :=
      ((ofBytes source).performAll (List.replicate k .tokens)).2
    skips source = [1, 4] ∧ segments source = [[0x61], [0x31, 0x2E], [0x62]] ∧
      (after 1).cursor.position = 2 ∧ (after 1).tokens.1 = tokensOf [0x31, 0x2E] ∧
      (after 3).cursor.current = none ∧
      (Network.takeAll (Session.tokenize (ofBytes source)) 0).1 ≠ allTokens source := by
  intro source after
  have hskips : skips source = [1, 4] := by decide +kernel
  have hsegments : segments source = [[0x61], [0x31, 0x2E], [0x62]] := by
    rw [segments, hskips]
    rfl
  obtain ⟨_, _, htokens, hposition, hend, _, hcomplete⟩ := tokens_resume source
  refine ⟨hskips, hsegments, ?_, ?_, ?_, ?_⟩
  · exact hposition 0 1 (by rw [hskips]; rfl)
  · exact htokens 1 _ (by rw [hsegments]; rfl)
  · exact (hend 2 (by rw [hskips]; exact Nat.le_refl 2)).1
  · intro hsame
    have hlt := hcomplete.mp hsame 1 (by rw [hskips]; rfl) 2 4 (.payload .numLiteral "1.")
      (by decide +kernel)
    exact absurd hlt (by decide)

end ByteLexer
