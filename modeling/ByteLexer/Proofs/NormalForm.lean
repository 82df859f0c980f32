import ByteLexer.Proofs.RoundTrip

/-!
# One lexeme per line

Every token that a run gives is well-formed, whatever bytes the source holds, so the tokens printed
one per line are scanned back. Printing the tokens of a source this way is a normal form.
-/

namespace ByteLexer

def printLines (ts : List Token) : String := "\n".intercalate (ts.map Token.lexeme)

/-- The tokens of a source, printed one per line. -/
def reprint (source : List UInt8) : List UInt8 := Utf8.encode (printLines (allTokens source))

@[simp] private theorem allTokens_nil : allTokens [] = [] := by
  rw [allTokens_eq_filterMap, events_nil]
  rfl

private theorem allTokens_blank_cons {b : UInt8} (h : isBlank b = true) (after : List UInt8) :
    allTokens (b :: after) = allTokens after := by
  rw [allTokens_eq_filterMap, allTokens_eq_filterMap, events_blank_cons h,
    Event.filterMap_token?_map_shift]

private theorem allTokens_skipped_cons {b : UInt8} (hlead : Lead.ofByte? b = none)
    (hblank : isBlank b = false) (after : List UInt8) :
    allTokens (b :: after) = allTokens after := by
  rw [allTokens_eq_filterMap, allTokens_eq_filterMap, events_skipped_cons hlead hblank,
    List.filterMap_cons, Event.filterMap_token?_map_shift]
  rfl

private theorem allTokens_lead_cons {b : UInt8} {lead : Lead} (hlead : Lead.ofByte? b = some lead)
    (after : List UInt8) : allTokens (b :: after) =
      lead.token (lead.reach after) (b :: after.take (lead.reach after)) ::
        allTokens (after.drop (lead.reach after)) := by
  rw [allTokens_eq_filterMap, allTokens_eq_filterMap, events_lead_cons hlead,
    List.filterMap_cons, Event.filterMap_token?_map_shift]
  rfl

theorem wellFormed_of_mem_allTokens (source : List UInt8) :
    ∀ t ∈ allTokens source, t.WellFormed := by
  induction source using source_induction with
  | nil => simp
  | blank b after hblank ih => rwa [allTokens_blank_cons hblank]
  | skipped b after hlead hblank ih => rwa [allTokens_skipped_cons hlead hblank]
  | token b after lead hlead ih =>
    rw [allTokens_lead_cons hlead, List.forall_mem_cons]
    exact ⟨(denotes_reach hlead after).wellFormed, ih⟩

def lineItems : List Token → List (Token × String)
  | [] => []
  | [t] => [(t, "")]
  | t :: u :: more => (t, "\n") :: lineItems (u :: more)

private theorem map_fst_lineItems (ts : List Token) : (lineItems ts).map Prod.fst = ts := by
  induction ts using lineItems.induct with
  | case1 => rfl
  | case2 t => rfl
  | case3 t u more ih => rw [lineItems, List.map_cons, ih]

private theorem printItems_lineItems (ts : List Token) :
    printItems (lineItems ts) = printLines ts := by
  induction ts using lineItems.induct with
  | case1 => rfl
  | case2 t => simp [lineItems, printItems, printLines]
  | case3 t u more ih =>
    rw [lineItems, printItems, ih, printLines, printLines, List.map_cons, List.map_cons,
      List.map_cons, String.intercalate_cons_cons]

private theorem isGap_of_mem_lineItems (ts : List Token) : ∀ item ∈ lineItems ts, IsGap item.2 := by
  induction ts using lineItems.induct with
  | case1 => simp [lineItems]
  | case2 t => simp [lineItems, IsGap]
  | case3 t u more ih =>
    rw [lineItems, List.forall_mem_cons]
    exact ⟨(by decide : IsGap "\n"), ih⟩

private theorem separated_lineItems (ts : List Token) : Separated (lineItems ts) := by
  induction ts using lineItems.induct with
  | case1 => trivial
  | case2 t => simp [lineItems, Separated, Token.EndsBefore]
  | case3 t u more ih =>
    have hends : t.EndsBefore "\n" (lineItems (u :: more)) := by simp [Token.EndsBefore]
    exact ⟨hends, ih⟩

theorem scans_printLines {ts : List Token} (h : ∀ t ∈ ts, t.WellFormed) :
    Scans (Utf8.encode (printLines ts)) ts := by
  have hitems : ∀ item ∈ lineItems ts, item.1.WellFormed := by
    intro item hitem
    apply h
    rw [← map_fst_lineItems ts]
    exact List.mem_map_of_mem hitem
  have hscans := scans_printItems hitems (isGap_of_mem_lineItems ts) (separated_lineItems ts)
  rwa [printItems_lineItems, map_fst_lineItems] at hscans

/-- The tokens of any source, printed one per line, are scanned back without a skip, and printing
them again changes nothing. -/
theorem scan_reprint (source : List UInt8) :
    tokensOf (reprint source) = allTokens source ∧ allTokens (reprint source) = allTokens source ∧
      Scans (reprint source) (allTokens source) ∧ reprint (reprint source) = reprint source := by
  have hscans : Scans (reprint source) (allTokens source) :=
    scans_printLines (wellFormed_of_mem_allTokens source)
  have hall : allTokens (reprint source) = allTokens source := hscans.allTokens_eq
  refine ⟨hscans.tokensOf_eq, hall, hscans, ?_⟩
  rw [reprint, hall, reprint]

-- The ill-formed bytes of the comment are printed as two replacement characters.
example : reprint [0x3F, 0xE2, 0x82, 0xFF, 0x0A, 0x24, 0x3D] =
    [0x3F, 0xEF, 0xBF, 0xBD, 0xEF, 0xBF, 0xBD, 0x0A, 0x3D] := by decide +kernel

end ByteLexer
