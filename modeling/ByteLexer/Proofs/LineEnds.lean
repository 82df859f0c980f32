import ByteLexer.Proofs.Comments
import ByteLexer.Proofs.Scannable
import ByteLexer.Scan.LineEnds

/-!
# Other line ends

A carriage return before each newline is a blank like the newline, so it ends every token that the
newline ended, but for comments: these take it in as their last character.
-/

namespace ByteLexer

@[simp] theorem crlf_nil : crlf [] = [] := rfl

@[simp] private theorem crlf_cons_newline (after : List UInt8) :
    crlf (newline :: after) = carriageReturn :: newline :: crlf after := rfl

private theorem crlf_cons_of_ne {b : UInt8} (h : b ≠ newline) (after : List UInt8) :
    crlf (b :: after) = b :: crlf after := by
  rw [crlf, List.flatMap_cons, if_neg h]
  rfl

private theorem crlf_append_of_not_mem {front : List UInt8} (h : newline ∉ front)
    (rest : List UInt8) : crlf (front ++ rest) = front ++ crlf rest := by
  induction front with
  | nil => rfl
  | cons b front ih =>
    have hb : b ≠ newline := (List.ne_of_not_mem_cons h).symm
    rw [List.cons_append, crlf_cons_of_ne hb, ih (List.not_mem_of_not_mem_cons h)]
    rfl

private theorem head?_crlf {source : List UInt8} {c : UInt8} (h : (crlf source).head? = some c) :
    source.head? = some c ∨ c = carriageReturn := by
  cases source with
  | nil => cases h
  | cons b after =>
    by_cases hb : b = newline
    · rw [hb, crlf_cons_newline] at h
      exact Or.inr (Option.some.inj h).symm
    · rw [crlf_cons_of_ne hb] at h
      exact Or.inl h

private theorem crlf_lead_cons {b : UInt8} {lead : Lead} (hlead : Lead.ofByte? b = some lead)
    (after : List UInt8) : crlf (b :: after) =
      b :: after.take (lead.reach after) ++ crlf (after.drop (lead.reach after)) := by
  have hfront := (denotes_reach hlead after).newline_not_mem
  rw [← crlf_append_of_not_mem hfront, List.cons_append, List.take_append_drop]

private theorem Event.foundBeforeReturn_shift (front rest : List UInt8) (e : Event) :
    (e.shift front.length).foundBeforeReturn (front ++ rest) = e.foundBeforeReturn rest := by
  cases e with
  | token start stop t =>
    have hbyte : (front ++ rest)[stop + front.length]? = rest[stop]? := by
      rw [List.getElem?_append_right (Nat.le_add_left _ _), Nat.add_sub_cancel]
    simp only [shift, foundBeforeReturn, hbyte]
  | skipped offset byte => rfl

private theorem map_foundBeforeReturn_rest (front : List UInt8) {source rest : List UInt8}
    (hsource : source = front ++ rest) (h : (events (crlf rest)).map Event.found =
      (events rest).map (Event.foundBeforeReturn rest)) :
    ((events rest).map (Event.shift front.length)).map (Event.foundBeforeReturn source) =
      (events (crlf rest)).map Event.found := by
  rw [hsource, h, List.map_map]
  exact List.map_congr_left fun e _ => e.foundBeforeReturn_shift front rest

private theorem map_found_comment_return {b : UInt8} (hlead : Lead.ofByte? b = some .comment)
    {body : List UInt8} (hbody : newline ∉ body) (rest : List UInt8) :
    (events (b :: body ++ carriageReturn :: newline :: rest)).map Event.found =
      .inl (Token.payload .comment (Utf8.decode (b :: body))).withReturn ::
        (events (carriageReturn :: newline :: rest)).map Event.found := by
  have hline : newline ∉ body ++ [carriageReturn] := by
    simpa [carriageReturn, newline] using hbody
  have hreach : Lead.comment.reach (body ++ [carriageReturn] ++ newline :: rest) =
      (body ++ [carriageReturn]).length :=
    Lead.reach_comment_append hline fun c hc => (Option.some.inj hc).symm
  have hsource : b :: body ++ carriageReturn :: newline :: rest =
      b :: (body ++ [carriageReturn]) ++ newline :: rest := by simp
  have htext : Utf8.decode (b :: (body ++ [carriageReturn])) =
      Utf8.decode (b :: body) ++ "\r" :=
    Utf8.decode_snoc_of_ascii rfl (b :: body)
  rw [hsource, events_lead_append hlead hreach, List.map_cons, map_found_map_shift,
    events_blank_cons (show isBlank carriageReturn = true from rfl), map_found_map_shift,
    Event.found, Lead.token, htext]
  rfl

/-- Unless it is a comment, a token ends before a carriage return where it ended before the
newline. -/
private theorem reach_append_crlf {b : UInt8} {lead : Lead} (hlead : Lead.ofByte? b = some lead)
    (after : List UInt8)
    (h : ¬ (lead = .comment ∧ (after.drop (lead.reach after)).head? = some newline)) :
    lead.reach (after.take (lead.reach after) ++ crlf (after.drop (lead.reach after))) =
      (after.take (lead.reach after)).length := by
  by_cases hcomment : lead = .comment
  · obtain rfl := hcomment
    cases hrest : after.drop (Lead.comment.reach after) with
    | nil => exact Lead.reach_comment_append (Lead.comment.accepts_take_reach after) (by simp)
    | cons c rest =>
      obtain rfl : c = newline := Lead.eq_newline_of_head? (congrArg List.head? hrest)
      exact absurd ⟨rfl, congrArg List.head? hrest⟩ h
  · refine reach_take_append_of_blank hlead hcomment fun c hc => ?_
    rcases head?_crlf hc with hsame | rfl
    · exact Or.inl hsame
    · exact Or.inr rfl

private theorem map_found_crlf_lead {b : UInt8} {lead : Lead}
    (hlead : Lead.ofByte? b = some lead) (after : List UInt8)
    (h : (events (crlf (after.drop (lead.reach after)))).map Event.found =
      (events (after.drop (lead.reach after))).map
        (Event.foundBeforeReturn (after.drop (lead.reach after)))) :
    (events (crlf (b :: after))).map Event.found =
      (events (b :: after)).map (Event.foundBeforeReturn (b :: after)) := by
  have hsource : b :: after = b :: after.take (lead.reach after) ++
      after.drop (lead.reach after) := by simp
  have hrest := map_foundBeforeReturn_rest _ hsource h
  rw [List.length_cons, lead.length_take_reach] at hrest
  have hbyte : (b :: after)[lead.reach after + 1]? =
      (after.drop (lead.reach after)).head? := by
    rw [List.getElem?_cons_succ, List.head?_drop]
  have hkind := Lead.kind_token_eq_comment_iff hlead after
  rw [crlf_lead_cons hlead, events_lead_cons hlead after, List.map_cons, hrest,
    Event.foundBeforeReturn, hbyte]
  -- Only a comment that a newline ended reaches one byte further; all else ends where it ended.
  by_cases hreturn : lead = .comment ∧ (after.drop (lead.reach after)).head? = some newline
  · obtain ⟨rest, hnewline⟩ := List.head?_eq_some_iff.mp hreturn.2
    rw [if_pos (hreturn.imp_left hkind.mpr), hnewline, crlf_cons_newline]
    obtain ⟨rfl, _⟩ := hreturn
    exact map_found_comment_return hlead (Lead.comment.accepts_take_reach after) (crlf rest)
  · rw [if_neg (mt (And.imp_left hkind.mp) hreturn),
      events_lead_append hlead (reach_append_crlf hlead after hreturn), List.map_cons,
      map_found_map_shift, lead.length_take_reach]
    rfl

/-- With carriage returns before its newlines a source gives the same tokens and skips the same
bytes, but each comment that a newline ended has one more character. -/
theorem map_found_crlf (source : List UInt8) : (events (crlf source)).map Event.found =
    (events source).map (Event.foundBeforeReturn source) := by
  induction source using source_induction with
  | nil => simp
  | blank b after hblank ih =>
    have hrest := map_foundBeforeReturn_rest [b] rfl ih
    rw [events_blank_cons hblank]
    refine Eq.trans ?_ hrest.symm
    by_cases hb : b = newline
    · obtain rfl := hb
      rw [crlf_cons_newline, events_blank_cons rfl, events_blank_cons rfl, map_found_map_shift,
        map_found_map_shift]
    · rw [crlf_cons_of_ne hb, events_blank_cons hblank, map_found_map_shift]
  | skipped b after hlead hblank ih =>
    have hrest := map_foundBeforeReturn_rest [b] rfl ih
    have hb : b ≠ newline := by
      rintro rfl
      cases hblank
    rw [crlf_cons_of_ne hb, events_skipped_cons hlead hblank, events_skipped_cons hlead hblank,
      List.map_cons, List.map_cons, map_found_map_shift]
    exact congrArg (_ :: ·) hrest.symm
  | token b after lead hlead ih => exact map_found_crlf_lead hlead after ih

/-- The new carriage return breaks off a character that has begun. A comment at the end keeps its
text, with the carriage return it has. -/
example : (events (crlf [0x3F, 0xE2, 0x0A, 0x0D, 0x0A, 0x24, 0x3F, 0x0D])).map Event.found =
    [.inl (.payload .comment (String.ofList ['?', Utf8.replacement, '\r'])), .inr 0x24,
      .inl (.payload .comment "?\r")] := by decide +kernel

end ByteLexer
