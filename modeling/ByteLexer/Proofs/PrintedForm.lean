import ByteLexer.Proofs.Scannable
import ByteLexer.Token.Line

/-!
# The printed form can be read back

A printed token takes one line, and the line says which token it is. So the printed tokens of a
source determine its tokens, though texts are printed as they stand.
-/

namespace ByteLexer

namespace Kind

private theorem not_mem_name (k : Kind) {c : Char} (h : c.isAlpha = false) : c ∉ k.name.toList := by
  have hletters : k.name.toList.all Char.isAlpha = true := by cases k <;> rfl
  intro hmem
  rw [List.all_eq_true.mp hletters c hmem] at h
  cases h

private theorem ofName_eq_ok_iff {given : String} {k : Kind} :
    ofName given = .ok k ↔ k.name = given := by
  constructor
  · intro h
    unfold ofName at h
    split at h
    · rename_i k' hfind
      obtain rfl : k' = k := by simpa using h
      simpa using List.find?_some hfind
    · cases h
  · intro h
    rw [← h, ofName_name]

end Kind

namespace Token

private theorem toList_render_unit {k : Kind} (h : k.hasPayload = false) :
    (unit k).render.toList = k.name.toList := by
  cases hspelling : k.spelling? with
  | none => simp [Kind.hasPayload, hspelling] at h
  | some spelling => simp [render, unit, hspelling]

private theorem toList_render_payload {k : Kind} (h : k.hasPayload = true) (text : String) :
    (payload k text).render.toList =
      k.name.toList ++ '(' :: '"' :: (text.toList ++ ['"', ')']) := by
  have hspelling : k.spelling? = none := Option.isNone_iff_eq_none.mp h
  simp [render, payload, hspelling]

private theorem quoted?_eq_some_iff {printed : List Char} {text : String} :
    quoted? printed = some text ↔ printed = '(' :: '"' :: (text.toList ++ ['"', ')']) := by
  constructor
  · intro h
    unfold quoted? at h
    split at h
    · rename_i rest
      dsimp only at h
      split at h
      · rename_i hclose
        obtain rfl := Option.some.inj h
        rw [String.toList_ofList, ← hclose, List.take_append_drop]
      · cases h
    · cases h
  · rintro rfl
    simp [quoted?]

private theorem ofLine?_name_append (k : Kind) (rest : List Char)
    (h : ∀ c, rest.head? = some c → c = '(') : ofLine? (k.name.toList ++ rest) =
      if k.hasPayload then (quoted? rest).map (payload k)
      else if rest = [] then some (unit k) else none := by
  have hname : ∀ c ∈ k.name.toList, (c != '(') = true := by
    intro c hc
    exact bne_iff_ne.mpr fun hparen => k.not_mem_name (by decide) (hparen ▸ hc)
  have hrest : rest.takeWhile (· != '(') = [] ∧ rest.dropWhile (· != '(') = rest := by
    cases rest with
    | nil => exact ⟨rfl, rfl⟩
    | cons c rest =>
      obtain rfl : c = '(' := h c rfl
      exact ⟨rfl, rfl⟩
  rw [ofLine?, List.takeWhile_append_of_pos hname, List.dropWhile_append_of_pos hname, hrest.1,
    hrest.2, List.append_nil, String.ofList_toList, Kind.ofName_name]

private theorem eq_render_of_ofLine? {line : List Char} {t : Token} (h : ofLine? line = some t) :
    line = t.render.toList ∧ (t.text = none ↔ t.kind.hasPayload = false) := by
  obtain ⟨k, hk⟩ : ∃ k, Kind.ofName (String.ofList (line.takeWhile (· != '('))) = .ok k := by
    unfold ofLine? at h
    split at h
    · cases h
    · exact ⟨_, ‹_›⟩
  have hline : line = k.name.toList ++ line.dropWhile (· != '(') := by
    rw [Kind.ofName_eq_ok_iff.mp hk, String.toList_ofList, List.takeWhile_append_dropWhile]
  -- The line is cut before its first parenthesis, so what is behind the name begins with one.
  have hparen : ∀ c, (line.dropWhile (· != '(')).head? = some c → c = '(' := by
    intro c hc
    have hnot := List.head?_dropWhile_not (· != '(') line
    simpa [hc] using hnot
  rw [hline, ofLine?_name_append k _ hparen] at h
  split at h
  · rename_i hpayload
    obtain ⟨text, htext, rfl⟩ := Option.map_eq_some_iff.mp h
    rw [quoted?_eq_some_iff.mp htext] at hline
    exact ⟨by rw [toList_render_payload hpayload, hline], by simp [payload, hpayload]⟩
  · rename_i hpayload
    rw [Bool.not_eq_true] at hpayload
    obtain ⟨hrest, hunit⟩ := Option.ite_none_right_eq_some.mp h
    obtain rfl := Option.some.inj hunit
    rw [hrest, List.append_nil] at hline
    exact ⟨by rw [toList_render_unit hpayload, hline], by simp [unit, hpayload]⟩

private theorem ofLine?_render_unit {k : Kind} (h : k.hasPayload = false) :
    ofLine? (unit k).render.toList = some (unit k) := by
  have hread := ofLine?_name_append k [] (by simp)
  rw [List.append_nil, ← toList_render_unit h] at hread
  rw [hread, h]
  rfl

private theorem ofLine?_render_payload {k : Kind} (h : k.hasPayload = true) (text : String) :
    ofLine? (payload k text).render.toList = some (payload k text) := by
  rw [toList_render_payload h, ofLine?_name_append k _ (by simp), if_pos h,
    quoted?_eq_some_iff.mpr rfl, Option.map_some]

/-- A line is read as the token that is printed so, if a token carries a text just where its kind
asks for one. -/
theorem ofLine?_eq_some_iff {line : List Char} {t : Token} :
    ofLine? line = some t ↔
      line = t.render.toList ∧ (t.text = none ↔ t.kind.hasPayload = false) := by
  constructor
  · exact eq_render_of_ofLine?
  · rintro ⟨rfl, htext⟩
    obtain ⟨k, text⟩ := t
    cases text with
    | none => exact ofLine?_render_unit (htext.mp rfl)
    | some text => exact ofLine?_render_payload (by simpa using htext) text

/-- A text that looks like the end of a line, and like another token. -/
example : ofLine? (payload .comment "?\")KwFn(\"").render.toList =
    some (payload .comment "?\")KwFn(\"") := by decide

private theorem WellFormed.ofLine?_render {t : Token} (h : t.WellFormed) :
    ofLine? t.render.toList = some t :=
  ofLine?_eq_some_iff.mpr ⟨rfl, h.text_eq_none_iff⟩

private theorem WellFormed.newline_not_mem_render {t : Token} (h : t.WellFormed) :
    '\n' ∉ t.render.toList := by
  have hlexeme := h.newline_not_mem_lexeme
  have htext := h.text_eq_none_iff
  obtain ⟨k, text⟩ := t
  have hname : '\n' ∉ k.name.toList := k.not_mem_name (by decide)
  cases text with
  | none => exact (toList_render_unit (htext.mp rfl)).symm ▸ hname
  | some text =>
    have hpayload : k.hasPayload = true := by simpa using htext
    have hspelling : k.spelling? = none := Option.isNone_iff_eq_none.mp hpayload
    have hrender : (⟨k, some text⟩ : Token).render.toList =
        k.name.toList ++ '(' :: '"' :: (text.toList ++ ['"', ')']) :=
      toList_render_payload hpayload text
    simp only [lexeme, hspelling, Option.getD_some] at hlexeme
    simp [hrender, hname, hlexeme]

/-- Printed tokens take one line each. -/
theorem splitOn_renderLines {ts : List Token} (h : ∀ t ∈ ts, t.WellFormed) :
    (renderLines ts).toList.splitOn '\n' = ts.map (fun t => t.render.toList) ++ [[]] := by
  induction ts with
  | nil => rfl
  | cons t ts ih =>
    obtain ⟨ht, hts⟩ := List.forall_mem_cons.mp h
    have hline : ∀ c ∈ t.render.toList, (c == '\n') = false := by
      intro c hc
      exact beq_eq_false_iff_ne.mpr fun hnewline => ht.newline_not_mem_render (hnewline ▸ hc)
    have hlines : (renderLines (t :: ts)).toList =
        t.render.toList ++ '\n' :: (renderLines ts).toList := by
      simp
    rw [hlines, List.splitOn_eq_splitOnP,
      List.splitOnP_append_cons_of_forall_mem hline '\n' (beq_self_eq_true _),
      ← List.splitOn_eq_splitOnP, ih hts]
    rfl

private theorem map_ofLine?_render {ts : List Token} (h : ∀ t ∈ ts, t.WellFormed) :
    ts.map (fun t => ofLine? t.render.toList) = ts.map some :=
  List.map_congr_left fun t ht => (h t ht).ofLine?_render

theorem eq_of_renderLines_eq {ts us : List Token} (hts : ∀ t ∈ ts, t.WellFormed)
    (hus : ∀ u ∈ us, u.WellFormed) (h : renderLines ts = renderLines us) : ts = us := by
  have hlines : ts.map (fun t => t.render.toList) = us.map (fun u => u.render.toList) := by
    have hcut := splitOn_renderLines hts
    rw [h, splitOn_renderLines hus] at hcut
    exact (List.append_cancel_right hcut).symm
  have hread : ts.map (fun t => ofLine? t.render.toList) =
      us.map (fun u => ofLine? u.render.toList) := by
    have hmap := congrArg (List.map ofLine?) hlines
    rwa [List.map_map, List.map_map] at hmap
  rw [map_ofLine?_render hts, map_ofLine?_render hus] at hread
  exact (List.map_inj_right fun _ _ => Option.some.inj).mp hread

end Token

namespace Scanner

private theorem wellFormed_of_mem_tokens (s : Scanner) : ∀ t ∈ s.tokens.1, t.WellFormed := by
  induction s using tokens.induct with
  | case1 s s' h =>
    rw [tokens_of_none (congrArg Prod.fst h)]
    exact List.forall_mem_nil _
  | case2 s t s' h ih =>
    have hcall : s.nextToken.1 = some t := congrArg Prod.fst h
    have hafter : s.nextToken.2 = s' := congrArg Prod.snd h
    rw [tokens_of_some hcall, hafter]
    exact List.forall_mem_cons.mpr ⟨wellFormed_of_nextToken hcall, ih⟩

end Scanner

/-- Cut at the line ends, the printed tokens of a source are one line for each, and each line is
read as its token whatever the other lines are. So sources that print the same have the same
tokens. -/
theorem renderLines_tokensOf_inj :
    (∀ source : List UInt8,
      (Token.renderLines (tokensOf source)).toList.splitOn '\n' =
        (tokensOf source).map (fun t => t.render.toList) ++ [[]] ∧
      (tokensOf source).map (fun t => Token.ofLine? t.render.toList) =
        (tokensOf source).map some) ∧
    ∀ source source' : List UInt8,
      Token.renderLines (tokensOf source) = Token.renderLines (tokensOf source') →
        tokensOf source = tokensOf source' := by
  have hwell (source : List UInt8) : ∀ t ∈ tokensOf source, t.WellFormed :=
    Scanner.wellFormed_of_mem_tokens (.ofBytes source)
  constructor
  · intro source
    exact ⟨Token.splitOn_renderLines (hwell source), Token.map_ofLine?_render (hwell source)⟩
  · intro source source' h
    exact Token.eq_of_renderLines_eq (hwell source) (hwell source') h

/-- Two ways to write a comment whose text looks like the end of a line, and what stands below. -/
theorem renderLines_tokensOf_inj_comment :
    let source : List UInt8 := [0x3F, 0x22, 0x29, 0x0A, 0x3B]
    let source' : List UInt8 := [0x20, 0x3F, 0x22, 0x29, 0x0A, 0x0D, 0x3B, 0x24, 0x3A]
    Token.renderLines (tokensOf source) = "Comment(\"?\")\")\nSemiColon\n" ∧
      Token.renderLines (tokensOf source) = Token.renderLines (tokensOf source') ∧
      tokensOf source = tokensOf source' := by
  intro source source'
  have htokens : tokensOf source = [.payload .comment "?\")", .unit .semicolon] := by decide +kernel
  have htokens' : tokensOf source' = [.payload .comment "?\")", .unit .semicolon] := by
    decide +kernel
  have hprinted : Token.renderLines (tokensOf source) = Token.renderLines (tokensOf source') := by
    rw [htokens, htokens']
  refine ⟨?_, hprinted, renderLines_tokensOf_inj.2 source source' hprinted⟩
  rw [htokens]
  decide

end ByteLexer
