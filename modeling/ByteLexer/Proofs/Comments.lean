import Mathlib.Data.List.Basic
import ByteLexer.Proofs.Gaps
import ByteLexer.Scan.Comments

/-!
# Comments are transparent

A comment ends at the end of its line, and a newline ends every other token. So what stands in the
place of a comment, be it another comment or nothing, leaves the rest of the source to be scanned as
before.
-/

namespace ByteLexer

def shiftPlace (n : Nat) (place : Nat × Nat) : Nat × Nat := (place.1 + n, place.2 + n)

private theorem Event.comment?_shift (n : Nat) (e : Event) :
    (e.shift n).comment? = e.comment?.map (shiftPlace n) := by
  cases e with
  | token start stop t =>
    rw [shift, comment?, comment?]
    split <;> rfl
  | skipped offset byte => rfl

theorem filterMap_comment?_map_shift (n : Nat) (found : List Event) :
    (found.map (Event.shift n)).filterMap Event.comment? =
      (found.filterMap Event.comment?).map (shiftPlace n) := by
  rw [List.filterMap_map, List.map_filterMap]
  exact congrArg (List.filterMap · found) (funext fun e => e.comment?_shift n)

@[simp] theorem comments_nil : comments [] = [] := by
  rw [comments, events_nil]
  rfl

private theorem comments_blank_cons {b : UInt8} (h : isBlank b = true) (after : List UInt8) :
    comments (b :: after) = (comments after).map (shiftPlace 1) := by
  rw [comments, events_blank_cons h, filterMap_comment?_map_shift, comments]

theorem comments_skipped_cons {b : UInt8} (hlead : Lead.ofByte? b = none)
    (hblank : isBlank b = false) (after : List UInt8) :
    comments (b :: after) = (comments after).map (shiftPlace 1) := by
  rw [comments, events_skipped_cons hlead hblank, List.filterMap_cons_none (by rfl),
    filterMap_comment?_map_shift, comments]

theorem Lead.kind_token_eq_comment_iff {b : UInt8} {lead : Lead}
    (hlead : Lead.ofByte? b = some lead) (after : List UInt8) :
    (lead.token (lead.reach after) (b :: after.take (lead.reach after))).kind = .comment ↔
      lead = .comment := by
  have hclass := (denotes_reach hlead after).first_byte.2.2.2
  have hmark : (lead.token (lead.reach after) (b :: after.take (lead.reach after))).kind =
      .comment ↔ b = commentMark :=
    decide_eq_true_iff.symm.trans (by rw [hclass, beq_iff_eq])
  rw [hmark]
  constructor
  · rintro rfl
    exact (Option.some.inj hlead).symm
  · rintro rfl
    exact Lead.ofByte?_eq_some_iff.mp hlead

theorem comments_lead_cons {b : UInt8} {lead : Lead} (hlead : Lead.ofByte? b = some lead)
    (after : List UInt8) : comments (b :: after) =
      (if lead = .comment then [(0, lead.reach after + 1)] else []) ++
        (comments (after.drop (lead.reach after))).map (shiftPlace (lead.reach after + 1)) := by
  rw [comments, events_lead_cons hlead, List.filterMap_cons, filterMap_comment?_map_shift, comments,
    Event.comment?]
  by_cases hcomment : lead = .comment
  · rw [if_pos ((Lead.kind_token_eq_comment_iff hlead after).mpr hcomment), if_pos hcomment]
    rfl
  · rw [if_neg (mt (Lead.kind_token_eq_comment_iff hlead after).mp hcomment), if_neg hcomment]
    rfl

private theorem splice_append (f : Nat → List UInt8) (front rest : List UInt8) (start : Nat)
    (places : List (Nat × Nat)) :
    splice f (front ++ rest) (start + front.length) (places.map (shiftPlace front.length)) =
      splice (fun n => f (n + front.length)) rest start places := by
  induction places generalizing start with
  | nil => exact drop_add_length_append front rest start
  | cons place places ih =>
    rw [List.map_cons, shiftPlace, splice, splice, take_add_length_append, ih, Nat.add_comm start,
      List.drop_length_add_append]

private theorem splice_append_zero (f : Nat → List UInt8) (front rest : List UInt8)
    (places : List (Nat × Nat)) :
    splice f (front ++ rest) 0 (places.map (shiftPlace front.length)) =
      front ++ splice (fun n => f (n + front.length)) rest 0 places := by
  cases places with
  | nil => rfl
  | cons place places =>
    rw [List.map_cons, shiftPlace, splice, splice, splice_append, take_add_length_append,
      List.drop_zero, List.drop_zero, List.append_assoc]

private theorem replaceComments_append (f : Nat → List UInt8) {source front rest : List UInt8}
    (hsource : source = front ++ rest)
    (h : comments source = (comments rest).map (shiftPlace front.length)) :
    replaceComments f source =
      front ++ replaceComments (fun n => f (n + front.length)) rest := by
  rw [replaceComments, h, hsource, splice_append_zero, replaceComments]

private theorem replaceComments_comment_append (f : Nat → List UInt8)
    {source front rest : List UInt8} (hsource : source = front ++ rest)
    (h : comments source =
      (0, front.length) :: (comments rest).map (shiftPlace front.length)) :
    replaceComments f source = f 0 ++ replaceComments (fun n => f (n + front.length)) rest := by
  have hmore := splice_append f front rest 0 (comments rest)
  rw [Nat.zero_add] at hmore
  rw [replaceComments, h, splice, hsource, hmore, List.take_zero, List.drop_nil, List.nil_append,
    replaceComments]

@[simp] private theorem replaceComments_nil (f : Nat → List UInt8) : replaceComments f [] = [] := by
  rw [replaceComments, comments_nil]
  rfl

private theorem replaceComments_cons (f : Nat → List UInt8) {b : UInt8} {after : List UInt8}
    (h : comments (b :: after) = (comments after).map (shiftPlace 1)) :
    replaceComments f (b :: after) = b :: replaceComments (fun n => f (n + 1)) after :=
  replaceComments_append f (show b :: after = [b] ++ after from rfl) h

private theorem replaceComments_lead_cons (f : Nat → List UInt8) {b : UInt8} {lead : Lead}
    (hlead : Lead.ofByte? b = some lead) (after : List UInt8) :
    replaceComments f (b :: after) =
      (if lead = .comment then f 0 else b :: after.take (lead.reach after)) ++
        replaceComments (fun n => f (n + (lead.reach after + 1)))
          (after.drop (lead.reach after)) := by
  have hlength : (b :: after.take (lead.reach after)).length = lead.reach after + 1 := by
    rw [List.length_cons, lead.length_take_reach]
  have hsource : b :: after =
      b :: after.take (lead.reach after) ++ after.drop (lead.reach after) := by
    rw [List.cons_append, List.take_append_drop]
  have hcomments := comments_lead_cons hlead after
  rw [← hlength] at hcomments ⊢
  by_cases hcomment : lead = .comment
  · rw [if_pos hcomment] at hcomments ⊢
    exact replaceComments_comment_append f hsource hcomments
  · rw [if_neg hcomment] at hcomments ⊢
    exact replaceComments_append f hsource hcomments

/-- In the place of each comment stands nothing or another comment. -/
def Replaces (f : Nat → List UInt8) (source : List UInt8) : Prop :=
  ∀ place ∈ comments source, f place.1 = [] ∨ IsComment (f place.1)

private theorem Replaces.rest {f : Nat → List UInt8} {source rest : List UInt8} {n : Nat}
    (h : Replaces f source) (before : List (Nat × Nat))
    (hcomments : comments source = before ++ (comments rest).map (shiftPlace n)) :
    Replaces (fun k => f (k + n)) rest := by
  intro place hplace
  refine h (shiftPlace n place) ?_
  rw [hcomments]
  exact List.mem_append_right before (List.mem_map_of_mem hplace)

private theorem Replaces.of_comment_cons {f : Nat → List UInt8} {b : UInt8} {after : List UInt8}
    (h : Replaces f (b :: after)) (hlead : Lead.ofByte? b = some .comment) :
    f 0 = [] ∨ IsComment (f 0) := by
  refine h (0, Lead.comment.reach after + 1) ?_
  rw [comments_lead_cons hlead, if_pos rfl]
  exact List.mem_cons_self

theorem Lead.eq_newline_of_head? {after : List UInt8} {c : UInt8}
    (h : (after.drop (comment.reach after)).head? = some c) : c = newline := by
  have hstop := not_accepts_of_head? h
  have haccepts : newline ∉ after.take (comment.reach after) := comment.accepts_take_reach after
  by_contra hne
  apply hstop
  intro hmem
  rcases List.mem_append.mp hmem with hmem | hmem
  · exact haccepts hmem
  · exact hne (List.mem_singleton.mp hmem).symm

theorem Lead.reach_comment_append {body tail : List UInt8} (hline : newline ∉ body)
    (h : ∀ c, tail.head? = some c → c = newline) : comment.reach (body ++ tail) = body.length := by
  have haccepts : comment.Accepts body := hline
  refine (reach_append_eq_length_iff haccepts tail).mpr fun c hc hmore => ?_
  obtain rfl := h c hc
  have hnot : newline ∉ body ++ [newline] := hmore
  exact hnot (by simp)

/-- A source with other bytes in the places of its comments begins as the source does, or with a
newline. -/
private theorem head?_replaceComments {f : Nat → List UInt8} {source : List UInt8}
    (h : Replaces f source) {c : UInt8} (hc : (replaceComments f source).head? = some c) :
    source.head? = some c ∨ c = newline := by
  induction source using source_induction generalizing f c with
  | nil =>
    rw [replaceComments_nil] at hc
    cases hc
  | blank b after hblank ih =>
    rw [replaceComments_cons f (comments_blank_cons hblank after)] at hc
    exact Or.inl hc
  | skipped b after hlead hblank ih =>
    rw [replaceComments_cons f (comments_skipped_cons hlead hblank after)] at hc
    exact Or.inl hc
  | token b after lead hlead ih =>
    have hcomments := comments_lead_cons hlead after
    rw [replaceComments_lead_cons f hlead] at hc
    by_cases hcomment : lead = .comment
    · obtain rfl := hcomment
      rw [if_pos rfl] at hc
      rcases h.of_comment_cons hlead with hnil | ⟨body, hbody, _⟩
      · rw [hnil, List.nil_append] at hc
        -- Where nothing stands the line goes on with its end.
        rcases ih (h.rest _ hcomments) hc with hsame | hnewline
        · exact Or.inr (Lead.eq_newline_of_head? hsame)
        · exact Or.inr hnewline
      · rw [hbody] at hc
        have hmark : b = commentMark := Lead.ofByte?_eq_some_iff.mp hlead
        exact Or.inl (hmark ▸ hc)
    · rw [if_neg hcomment] at hc
      exact Or.inl hc

/-- A token other than a comment stops again before what stopped it, and before any blank. -/
theorem reach_take_append_of_blank {b : UInt8} {lead : Lead} {after tail : List UInt8}
    (hlead : Lead.ofByte? b = some lead) (hcomment : lead ≠ .comment)
    (h : ∀ c, tail.head? = some c →
      (after.drop (lead.reach after)).head? = some c ∨ isBlank c = true) :
    lead.reach (after.take (lead.reach after) ++ tail) =
      (after.take (lead.reach after)).length := by
  refine (Lead.reach_append_eq_length_iff (lead.accepts_take_reach after) _).mpr fun c hc => ?_
  rcases h c hc with hsame | hblank
  · exact Lead.not_accepts_of_head? hsame
  · have hkind := mt (Lead.kind_token_eq_comment_iff hlead after).mp hcomment
    have hstop := (denotes_reach hlead after).not_isLexeme_snoc_blank hkind hblank
    rwa [List.cons_append, isLexeme_cons_iff_accepts hlead] at hstop

private theorem reach_append_replaceComments {f : Nat → List UInt8} {b : UInt8} {lead : Lead}
    {after : List UInt8} (hlead : Lead.ofByte? b = some lead) (hcomment : lead ≠ .comment)
    (h : Replaces f (after.drop (lead.reach after))) :
    lead.reach (after.take (lead.reach after) ++
      replaceComments f (after.drop (lead.reach after))) =
        (after.take (lead.reach after)).length := by
  refine reach_take_append_of_blank hlead hcomment fun c hc => ?_
  rcases head?_replaceComments h hc with hsame | rfl
  · exact Or.inl hsame
  · exact Or.inr rfl

private theorem reach_append_replaceComments_comment {f : Nat → List UInt8}
    {body after : List UInt8}
    (hline : newline ∉ body) (h : Replaces f (after.drop (Lead.comment.reach after))) :
    Lead.comment.reach (body ++ replaceComments f (after.drop (Lead.comment.reach after))) =
      body.length :=
  Lead.reach_comment_append hline fun _ hc =>
    (head?_replaceComments h hc).elim Lead.eq_newline_of_head? id

def Event.rewritten (f : Nat → List UInt8) (e : Event) : List (Token ⊕ UInt8) :=
  match e.comment? with
  | some (start, _) =>
    if f start = [] then [] else [.inl (.payload .comment (Utf8.decode (f start)))]
  | none => [e.found]

private theorem Event.rewritten_shift (f : Nat → List UInt8) (n : Nat) (e : Event) :
    (e.shift n).rewritten f = e.rewritten (fun k => f (k + n)) := by
  rw [rewritten, rewritten, comment?_shift]
  cases e.comment? with
  | some place => rfl
  | none => exact congrArg ([·]) (e.found_shift n)

private theorem Event.rewritten_of_comment (f : Nat → List UInt8) {start stop : Nat} {t : Token}
    (h : t.kind = .comment) : (token start stop t).rewritten f =
      if f start = [] then [] else [.inl (.payload .comment (Utf8.decode (f start)))] := by
  rw [rewritten, comment?, if_pos h]

private theorem Event.rewritten_of_ne_comment (f : Nat → List UInt8) {start stop : Nat} {t : Token}
    (h : t.kind ≠ .comment) : (token start stop t).rewritten f = [.inl t] := by
  rw [rewritten, comment?, if_neg h]
  rfl

private theorem flatMap_rewritten_map_shift (f : Nat → List UInt8) (n : Nat) (found : List Event) :
    (found.map (Event.shift n)).flatMap (Event.rewritten f) =
      found.flatMap (Event.rewritten fun k => f (k + n)) := by
  rw [List.flatMap_map]
  exact congrArg (List.flatMap · found) (funext fun e => e.rewritten_shift f n)

/-- With nothing or another comment in the places of its comments, a source is scanned as before but
for what is found in these places. -/
theorem map_found_replaceComments {f : Nat → List UInt8} {source : List UInt8}
    (h : Replaces f source) : (events (replaceComments f source)).map Event.found =
      (events source).flatMap (Event.rewritten f) := by
  induction source using source_induction generalizing f with
  | nil =>
    rw [replaceComments_nil, events_nil]
    rfl
  | blank b after hblank ih =>
    have hcomments := comments_blank_cons hblank after
    rw [replaceComments_cons f hcomments, events_blank_cons hblank, events_blank_cons hblank,
      map_found_map_shift, flatMap_rewritten_map_shift, ih (h.rest [] hcomments)]
  | skipped b after hlead hblank ih =>
    have hcomments := comments_skipped_cons hlead hblank after
    rw [replaceComments_cons f hcomments, events_skipped_cons hlead hblank,
      events_skipped_cons hlead hblank, List.map_cons, List.flatMap_cons, map_found_map_shift,
      flatMap_rewritten_map_shift, ih (h.rest [] hcomments)]
    rfl
  | token b after lead hlead ih =>
    have hcomments := comments_lead_cons hlead after
    have hmore := ih (h.rest _ hcomments)
    rw [replaceComments_lead_cons f hlead, events_lead_cons hlead, List.flatMap_cons,
      flatMap_rewritten_map_shift, ← hmore]
    by_cases hcomment : lead = .comment
    · -- In its place is nothing, or another comment that ends where its line does.
      obtain rfl := hcomment
      rw [if_pos rfl, Event.rewritten_of_comment f (by rfl)]
      rcases h.of_comment_cons hlead with hnil | ⟨body, hbody, hline⟩
      · rw [hnil, if_pos rfl, List.nil_append, List.nil_append]
      · have hreach := reach_append_replaceComments_comment hline (h.rest _ hcomments)
        rw [hbody, if_neg (List.cons_ne_nil _ _), events_lead_append rfl hreach, List.map_cons,
          map_found_map_shift]
        rfl
    · -- What stopped the token still does, or a blank in its stead.
      have hkind := mt (Lead.kind_token_eq_comment_iff hlead after).mp hcomment
      have hreach := reach_append_replaceComments hlead hcomment (h.rest _ hcomments)
      rw [if_neg hcomment, Event.rewritten_of_ne_comment f hkind, events_lead_append hlead hreach,
        List.map_cons, map_found_map_shift, lead.length_take_reach]
      rfl

/-- What was found, with the text of a comment read from what `f` gives for its place. -/
def Event.foundWith (f : Nat → List UInt8) (e : Event) : Token ⊕ UInt8 :=
  match e.comment? with
  | some (start, _) => .inl (.payload .comment (Utf8.decode (f start)))
  | none => e.found

private theorem flatMap_rewritten_nil (found : List Event) :
    found.flatMap (Event.rewritten fun _ => []) =
      (found.filter (·.comment?.isNone)).map Event.found := by
  induction found with
  | nil => rfl
  | cons e found ih =>
    rw [List.flatMap_cons, ih, Event.rewritten, List.filter_cons]
    cases e.comment? <;> rfl

private theorem rewritten_eq_foundWith {f : Nat → List UInt8} {e : Event}
    (h : ∀ place, e.comment? = some place → f place.1 ≠ []) :
    e.rewritten f = [e.foundWith f] := by
  rw [Event.rewritten, Event.foundWith]
  cases hplace : e.comment? with
  | some place => exact if_neg (h place hplace)
  | none => rfl

/-- Comments do not bear on what else is found. Without them a source gives the same other tokens
and skips the same bytes; with other comments in their places, ill-formed ones too, it gives the
same but for the texts of these. -/
theorem comments_transparent (source : List UInt8) :
    (events (dropComments source)).map Event.found =
      ((events source).filter (·.comment?.isNone)).map Event.found ∧
    ∀ f : Nat → List UInt8, (∀ place ∈ comments source, IsComment (f place.1)) →
      (events (replaceComments f source)).map Event.found =
        (events source).map (Event.foundWith f) := by
  constructor
  · have hdrop : Replaces (fun _ => []) source := fun _ _ => Or.inl rfl
    rw [dropComments, map_found_replaceComments hdrop, flatMap_rewritten_nil]
  · intro f hf
    have hreplaces : Replaces f source := fun place hplace => Or.inr (hf place hplace)
    have hne : ∀ e ∈ events source, ∀ place, e.comment? = some place → f place.1 ≠ [] := by
      intro e he place hplace
      obtain ⟨body, hbody, _⟩ := hf place (List.mem_filterMap.mpr ⟨e, he, hplace⟩)
      rw [hbody]
      exact List.cons_ne_nil _ _
    rw [map_found_replaceComments hreplaces, List.map_eq_flatMap]
    exact List.flatMap_congr fun e he => rewritten_eq_foundWith (hne e he)

/-- Comments right behind a number and right behind `>`. -/
theorem comments_transparent_glued :
    let source : List UInt8 := [0x31, 0x3F, 0x2E, 0x0A, 0x3E, 0x3F, 0x24, 0x0A, 0x3D]
    let f (start : Nat) : List UInt8 := if start = 1 then [0x3F, 0xFF, 0x31] else [0x3F]
    dropComments source = [0x31, 0x0A, 0x3E, 0x0A, 0x3D] ∧
      (events (dropComments source)).map Event.found =
        [.inl (.payload .numLiteral "1"), .inl (.unit .opGt), .inl (.unit .assign)] ∧
      replaceComments f source = [0x31, 0x3F, 0xFF, 0x31, 0x0A, 0x3E, 0x3F, 0x0A, 0x3D] ∧
      (events (replaceComments f source)).map Event.found =
        (events source).map (Event.foundWith f) := by
  intro source f
  have hcomments : comments source = [(1, 3), (5, 7)] := by decide +kernel
  have hfound : ((events source).filter (·.comment?.isNone)).map Event.found =
      [.inl (.payload .numLiteral "1"), .inl (.unit .opGt), .inl (.unit .assign)] := by
    decide +kernel
  have hf : ∀ place ∈ comments source, IsComment (f place.1) := by
    rw [hcomments]
    intro place hplace
    rcases List.mem_pair.mp hplace with rfl | rfl
    · exact ⟨[0xFF, 0x31], rfl, by decide⟩
    · exact ⟨[], rfl, List.not_mem_nil⟩
  obtain ⟨hdropped, hreplaced⟩ := comments_transparent source
  refine ⟨?_, hdropped.trans hfound, ?_, hreplaced f hf⟩
  · rw [dropComments, replaceComments, hcomments]
    rfl
  · rw [replaceComments, hcomments]
    rfl

end ByteLexer
