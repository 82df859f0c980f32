import Mathlib.Data.List.TakeWhile
import ByteLexer.Scan.Lead

/-!
# How far a lead reaches

What may follow the first byte of a token is, for each lead, a language closed under prefixes. The
reach is the length of the longest prefix in it, and one byte of lookahead decides where it ends.
-/

namespace ByteLexer.Lead

/-- What may follow the first byte within a token. -/
def Accepts : Lead → List UInt8 → Prop
  | mark _, more => more = []
  | pair _ _, more => more = [] ∨ more = [equals]
  | comment, more => newline ∉ more
  | word, more => ∀ b ∈ more, isWordByte b = true
  | number, more =>
    ∃ digits fraction, more = digits ++ fraction ∧ (∀ b ∈ digits, isDigit b = true) ∧
      (fraction = [] ∨ ∃ places, fraction = dot :: places ∧ ∀ b ∈ places, isDigit b = true)

theorem accepts_nil (lead : Lead) : lead.Accepts [] := by
  cases lead with
  | mark kind => rfl
  | pair alone joined => exact Or.inl rfl
  | comment => exact List.not_mem_nil
  | word => exact fun b hb => absurd hb List.not_mem_nil
  | number => exact ⟨[], [], rfl, fun b hb => absurd hb List.not_mem_nil, Or.inl rfl⟩

theorem accepts_number_cons (b : UInt8) (more : List UInt8) :
    number.Accepts (b :: more) ↔
      isDigit b = true ∧ number.Accepts more ∨ b = dot ∧ ∀ d ∈ more, isDigit d = true := by
  constructor
  · intro h
    obtain ⟨digits, fraction, hmore, hdigits, hfraction⟩ := h
    cases digits with
    | nil =>
      rcases hfraction with rfl | ⟨places, rfl, hplaces⟩
      · simp at hmore
      · obtain ⟨rfl, rfl⟩ := List.cons.inj hmore
        exact Or.inr ⟨rfl, hplaces⟩
    | cons d digits =>
      obtain ⟨rfl, rfl⟩ := List.cons.inj hmore
      exact Or.inl ⟨hdigits b (by simp), digits, fraction, rfl,
        fun d hd => hdigits d (by simp [hd]), hfraction⟩
  · intro h
    rcases h with ⟨hb, digits, fraction, rfl, hdigits, hfraction⟩ | ⟨rfl, hmore⟩
    · refine ⟨b :: digits, fraction, rfl, ?_, hfraction⟩
      intro d hd
      rcases List.mem_cons.mp hd with rfl | hd
      · exact hb
      · exact hdigits d hd
    · exact ⟨[], dot :: more, rfl, by simp, Or.inr ⟨more, rfl, hmore⟩⟩

private theorem accepts_number_of_isPrefix {few more : List UInt8} (h : number.Accepts more)
    (hpre : few <+: more) : number.Accepts few := by
  induction few generalizing more with
  | nil => exact accepts_nil _
  | cons b few ih =>
    obtain ⟨tail, rfl⟩ := hpre
    rw [List.cons_append, accepts_number_cons] at h
    rw [accepts_number_cons]
    rcases h with ⟨hb, hrest⟩ | ⟨hb, hrest⟩
    · exact Or.inl ⟨hb, ih hrest (List.prefix_append _ _)⟩
    · exact Or.inr ⟨hb, fun d hd => hrest d (by simp [hd])⟩

theorem Accepts.of_isPrefix {lead : Lead} {few more : List UInt8} (h : lead.Accepts more)
    (hpre : few <+: more) : lead.Accepts few := by
  cases lead with
  | mark kind =>
    have hmore : more = [] := h
    subst hmore
    exact List.prefix_nil.mp hpre
  | pair alone joined =>
    rcases h with rfl | rfl
    · exact Or.inl (List.prefix_nil.mp hpre)
    · obtain ⟨tail, htail⟩ := hpre
      cases few with
      | nil => exact Or.inl rfl
      | cons b few =>
        obtain ⟨rfl, hfew⟩ := List.cons.inj htail
        exact Or.inr (by rw [(List.append_eq_nil_iff.mp hfew).1])
  | comment => exact fun hmem => h (hpre.subset hmem)
  | word => exact fun b hb => h b (hpre.subset hb)
  | number => exact accepts_number_of_isPrefix h hpre

private theorem take_length_takeWhile (p : UInt8 → Bool) (bytes : List UInt8) :
    bytes.take (bytes.takeWhile p).length = bytes.takeWhile p :=
  (List.prefix_iff_eq_take.mp (List.takeWhile_prefix p)).symm

private theorem length_le_takeWhile {p : UInt8 → Bool} {more bytes : List UInt8}
    (hpre : more <+: bytes) (hp : ∀ b ∈ more, p b = true) :
    more.length ≤ (bytes.takeWhile p).length := by
  obtain ⟨tail, rfl⟩ := hpre
  rw [List.takeWhile_append_of_pos hp, List.length_append]
  omega

private theorem numberReach_cons (b : UInt8) (after : List UInt8) :
    numberReach (b :: after) =
      if isDigit b then numberReach after + 1
      else if b = dot then 1 + (after.takeWhile isDigit).length else 0 := by
  by_cases hb : isDigit b = true
  · simp only [numberReach, List.takeWhile_cons_of_pos hb, List.length_cons, List.drop_succ_cons,
      hb, if_true]
    cases after.drop (after.takeWhile isDigit).length with
    | nil => rfl
    | cons c rest =>
      simp only []
      split <;> omega
  · simp [numberReach, hb]

private theorem accepts_take_numberReach (after : List UInt8) :
    number.Accepts (after.take (numberReach after)) := by
  induction after with
  | nil => exact accepts_nil number
  | cons b after ih =>
    rw [numberReach_cons]
    by_cases hb : isDigit b = true
    · rw [if_pos hb, List.take_succ_cons]
      exact (accepts_number_cons _ _).mpr (Or.inl ⟨hb, ih⟩)
    · by_cases hdot : b = dot
      · rw [if_neg hb, if_pos hdot, Nat.add_comm, List.take_succ_cons, take_length_takeWhile]
        exact (accepts_number_cons _ _).mpr
          (Or.inr ⟨hdot, fun d hd => List.mem_takeWhile_imp hd⟩)
      · rw [if_neg hb, if_neg hdot, List.take_zero]
        exact accepts_nil number

private theorem length_le_numberReach {more after : List UInt8} (h : number.Accepts more)
    (hpre : more <+: after) : more.length ≤ numberReach after := by
  induction after generalizing more with
  | nil => simp [List.prefix_nil.mp hpre]
  | cons b after ih =>
    cases more with
    | nil => exact Nat.zero_le _
    | cons c more =>
      obtain ⟨rfl, htail⟩ := List.cons_prefix_cons.mp hpre
      rw [numberReach_cons, List.length_cons]
      rcases (accepts_number_cons _ _).mp h with ⟨hc, hmore⟩ | ⟨rfl, hmore⟩
      · rw [if_pos hc]
        exact Nat.succ_le_succ (ih hmore htail)
      · rw [if_neg (by decide), if_pos rfl, Nat.add_comm]
        exact Nat.add_le_add_left (length_le_takeWhile htail hmore) 1

theorem accepts_take_reach (lead : Lead) (after : List UInt8) :
    lead.Accepts (after.take (lead.reach after)) := by
  cases lead with
  | mark kind => rfl
  | pair alone joined =>
    cases after with
    | nil => exact accepts_nil _
    | cons b after =>
      by_cases hb : b = equals
      · exact Or.inr (by simp [reach, hb])
      · exact Or.inl (by simp [reach, hb])
  | comment =>
    intro hmem
    rw [reach, take_length_takeWhile] at hmem
    simpa using List.mem_takeWhile_imp hmem
  | word =>
    intro b hb
    rw [reach, take_length_takeWhile] at hb
    exact List.mem_takeWhile_imp hb
  | number => exact accepts_take_numberReach after

theorem length_le_reach {lead : Lead} {more after : List UInt8} (h : lead.Accepts more)
    (hpre : more <+: after) : more.length ≤ lead.reach after := by
  cases lead with
  | mark kind =>
    have hmore : more = [] := h
    simp [hmore]
  | pair alone joined =>
    rcases h with rfl | rfl
    · simp
    · obtain ⟨tail, rfl⟩ := hpre
      simp [reach]
  | comment =>
    apply length_le_takeWhile hpre
    intro b hb
    exact decide_eq_true fun heq => h (heq ▸ hb)
  | word => exact length_le_takeWhile hpre h
  | number => exact length_le_numberReach h hpre

theorem reach_le_length (lead : Lead) (after : List UInt8) : lead.reach after ≤ after.length := by
  cases lead with
  | mark kind => simp [reach]
  | pair alone joined => cases after <;> simp [reach]; split <;> omega
  | comment => exact (List.takeWhile_prefix _).length_le
  | word => exact (List.takeWhile_prefix _).length_le
  | number =>
    induction after with
    | nil => simp [reach, numberReach]
    | cons b after ih =>
      have hplaces : (after.takeWhile isDigit).length ≤ after.length :=
        (List.takeWhile_prefix _).length_le
      have hrest : numberReach after ≤ after.length := ih
      rw [reach, numberReach_cons, List.length_cons]
      split_ifs <;> omega

@[simp] theorem length_take_reach (lead : Lead) (after : List UInt8) :
    (after.take (lead.reach after)).length = lead.reach after := by
  rw [List.length_take, Nat.min_eq_left (lead.reach_le_length after)]

/-- The reach ends exactly where the next byte is not accepted any more. -/
theorem reach_append_eq_length_iff {lead : Lead} {more : List UInt8} (h : lead.Accepts more)
    (tail : List UInt8) : lead.reach (more ++ tail) = more.length ↔
      ∀ b, tail.head? = some b → ¬ lead.Accepts (more ++ [b]) := by
  constructor
  · intro hreach b hb hmore
    obtain ⟨rest, rfl⟩ := List.head?_eq_some_iff.mp hb
    have hle := length_le_reach hmore (show more ++ [b] <+: more ++ b :: rest from ⟨rest, by simp⟩)
    simp only [List.length_append, List.length_singleton] at hle
    omega
  · intro hstop
    have hge := length_le_reach h (List.prefix_append more tail)
    by_contra hne
    cases tail with
    | nil =>
      have hle := lead.reach_le_length (more ++ [])
      simp only [List.length_append, List.length_nil] at hle
      omega
    | cons b rest =>
      have hpart : more ++ [b] <+: (more ++ b :: rest).take (lead.reach (more ++ b :: rest)) := by
        rw [List.prefix_take_iff]
        exact ⟨⟨rest, by simp⟩, by simp only [List.length_append, List.length_singleton]; omega⟩
      exact hstop b rfl ((lead.accepts_take_reach _).of_isPrefix hpart)

theorem not_accepts_of_head? {lead : Lead} {after : List UInt8} {b : UInt8}
    (h : (after.drop (lead.reach after)).head? = some b) :
    ¬ lead.Accepts (after.take (lead.reach after) ++ [b]) := by
  refine (reach_append_eq_length_iff (lead.accepts_take_reach after) _).mp ?_ b h
  rw [List.take_append_drop, length_take_reach]

/-- Behind the bytes it reached over a lead stops again before anything that begins alike. -/
theorem reach_take_append {lead : Lead} {after tail : List UInt8}
    (h : ∀ b, tail.head? = some b → (after.drop (lead.reach after)).head? = some b) :
    lead.reach (after.take (lead.reach after) ++ tail) = lead.reach after := by
  have haccepts := lead.accepts_take_reach after
  have hagain := (reach_append_eq_length_iff haccepts tail).mpr fun b hb =>
    not_accepts_of_head? (h b hb)
  rwa [length_take_reach] at hagain

end ByteLexer.Lead
