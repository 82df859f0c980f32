import ByteLexer.Files.Tree

/-! # File trees as file systems

A file that is made or written stands where no directory stood, so every path goes on through the
directories it went through before. With this a tree obeys the laws of file systems. -/
namespace ByteLexer.FileTree

variable {t t' : FileTree} {directory location : Location} {name path : String}

/-- Two trees with the same directories and the same working directory. -/
structure SameDirectories (t t' : FileTree) : Prop where
  here : t'.here = t.here
  node?_iff (location : Location) :
    t'.node? location = some .directory ↔ t.node? location = some .directory

private theorem SameDirectories.symm (h : SameDirectories t t') : SameDirectories t' t :=
  ⟨h.here.symm, fun location => (h.node?_iff location).symm⟩

private theorem find_eq_ok_iff {found : Option Node} : t.find directory name = .ok found ↔
    name.utf8ByteSize ≤ Path.maxName ∧ t.node? (directory ++ [name]) = found := by
  unfold find
  split
  · constructor
    · intro h
      cases h
    · rintro ⟨hsize, _⟩
      omega
  · rw [Except.ok.injEq]
    constructor
    · intro h
      exact ⟨by omega, h⟩
    · exact And.right

private theorem find_of_directory (h : t.find directory name = .ok (some .directory))
    (hsame : SameDirectories t t') : t'.find directory name = .ok (some .directory) := by
  obtain ⟨hsize, hnode⟩ := find_eq_ok_iff.mp h
  exact find_eq_ok_iff.mpr ⟨hsize, (hsame.node?_iff _).mpr hnode⟩

private theorem enter_of_sameDirectories {found : Location} (hsame : SameDirectories t t')
    (h : t.enter directory name = .ok found) : t'.enter directory name = .ok found := by
  unfold enter at h ⊢
  split at h
  · rwa [if_pos ‹_›]
  · rw [if_neg ‹_›]
    split at h
    · rwa [if_pos ‹_›]
    · rw [if_neg ‹_›]
      split at h
      · cases h
      · rename_i hfind
        rw [find_of_directory hfind hsame]
        exact h
      · cases h
      · cases h

private theorem foldlM_enter_of_sameDirectories {names : List String} {found : Location}
    (hsame : SameDirectories t t') (h : names.foldlM t.enter directory = .ok found) :
    names.foldlM t'.enter directory = .ok found := by
  induction names generalizing directory with
  | nil => exact h
  | cons name names ih =>
    rw [List.foldlM_cons] at h ⊢
    cases henter : t.enter directory name with
    | error fault =>
      rw [henter] at h
      cases h
    | ok inner =>
      rw [henter] at h
      rw [enter_of_sameDirectories hsame henter]
      exact ih h

private theorem aim_of_sameDirectories {a : Aim} (hsame : SameDirectories t t')
    (h : t.aim path = .ok a) : t'.aim path = .ok a := by
  have hstart : t'.start path = t.start path := by
    unfold start
    rw [hsame.here]
  unfold aim at h ⊢
  split at h
  · cases h
  · rw [if_neg ‹_›]
    split at h
    · cases h
    · rw [if_neg ‹_›]
      split at h
      · cases h
      · rw [if_neg ‹_›, hstart]
        cases hwalk : (Path.names path).dropLast.foldlM t.enter (t.start path) with
        | error fault =>
          rw [hwalk] at h
          cases h
        | ok inner =>
          rw [hwalk] at h
          rw [foldlM_enter_of_sameDirectories hsame hwalk]
          exact h

private theorem content_eq_some_iff {bytes : List UInt8} :
    t.content location = some bytes ↔ t.node? location = some (.file bytes) := by
  unfold content
  split
  · rename_i found hnode
    rw [hnode, Option.some.injEq, Option.some.injEq, Node.file.injEq]
  · rename_i hnode
    constructor
    · intro h
      cases h
    · intro h
      exact absurd h (hnode bytes)

/-- A path leads to the file at the entry that it aims at, unless it ends in a slash. -/
theorem lookup_eq_ok_iff : t.lookup path = .ok location ↔
    ∃ directory name, t.aim path = .ok (.entry directory name) ∧
      name.utf8ByteSize ≤ Path.maxName ∧ Path.endsInSlash path = false ∧
      location = directory ++ [name] ∧ ∃ bytes, t.content location = some bytes := by
  constructor
  · intro h
    unfold lookup at h
    split at h
    · cases h
    · cases h
    · rename_i directory name haim
      split at h
      · cases h
      · cases h
      · cases h
      · rename_i bytes hfind
        obtain ⟨hsize, hnode⟩ := find_eq_ok_iff.mp hfind
        split at h
        · cases h
        · rename_i hslash
          cases h
          exact ⟨directory, name, haim, hsize, Bool.eq_false_iff.mpr hslash, rfl, bytes,
            content_eq_some_iff.mpr hnode⟩
  · rintro ⟨directory, name, haim, hsize, hslash, rfl, bytes, hcontent⟩
    have hfind := find_eq_ok_iff.mpr ⟨hsize, content_eq_some_iff.mp hcontent⟩
    simp [lookup, haim, hfind, hslash]

/-- A file is made at the entry that a path aims at, unless a directory is there or is meant. -/
theorem create_eq_ok_iff : t.create path = .ok (location, t') ↔
    ∃ directory name, t.aim path = .ok (.entry directory name) ∧
      name.utf8ByteSize ≤ Path.maxName ∧ Path.endsInSlash path = false ∧
      location = directory ++ [name] ∧ t.node? location ≠ some .directory ∧
      t' = t.put location (.file []) := by
  constructor
  · intro h
    unfold create at h
    split at h
    · cases h
    · cases h
    · rename_i directory name haim
      split at h
      · cases h
      · rename_i hslash
        split at h
        · cases h
        · cases h
        · rename_i found hfile hfind
          obtain ⟨hsize, hnode⟩ := find_eq_ok_iff.mp hfind
          cases h
          refine ⟨directory, name, haim, hsize, Bool.eq_false_iff.mpr hslash, rfl, ?_, rfl⟩
          rw [hnode]
          exact hfile
  · rintro ⟨directory, name, haim, hsize, hslash, rfl, hnode, rfl⟩
    have hfind : t.find directory name = .ok (t.node? (directory ++ [name])) :=
      find_eq_ok_iff.mpr ⟨hsize, rfl⟩
    unfold create
    rw [haim]
    simp only [hslash, Bool.false_eq_true, if_false, hfind]

private theorem ne_nil_of_node? (h : t.node? location ≠ some .directory) : location ≠ [] := by
  rintro rfl
  exact h rfl

private theorem sameDirectories_put_file (h : t.node? location ≠ some .directory)
    (bytes : List UInt8) : SameDirectories t (t.put location (.file bytes)) := by
  refine ⟨rfl, fun other => ?_⟩
  by_cases hother : other = location
  · rw [hother, node?_put t _ (ne_nil_of_node? h)]
    simp [h]
  · rw [node?_put_of_ne t _ hother]

private theorem content_put_file (h : location ≠ []) (bytes : List UInt8) :
    (t.put location (.file bytes)).content location = some bytes :=
  content_eq_some_iff.mpr (node?_put t _ h)

private theorem content_put_of_ne {other : Location} (h : other ≠ location) (node : Node) :
    (t.put location node).content other = t.content other := by
  rw [content, content, node?_put_of_ne t node h]

private theorem lookup_of_sameDirectories (hsame : SameDirectories t t') {bytes : List UInt8}
    (hcontent : t'.content location = some bytes) (h : t.lookup path = .ok location) :
    t'.lookup path = .ok location := by
  obtain ⟨directory, name, haim, hsize, hslash, hlocation, _⟩ := lookup_eq_ok_iff.mp h
  exact lookup_eq_ok_iff.mpr
    ⟨directory, name, aim_of_sameDirectories hsame haim, hsize, hslash, hlocation, bytes, hcontent⟩

private theorem lookup_put_file (h : t.node? location ≠ some .directory) (bytes : List UInt8)
    {other : Location} (hkeeps : other = location → ∃ old, t.content other = some old) :
    (t.put location (.file bytes)).lookup path = .ok other ↔ t.lookup path = .ok other := by
  have hsame := sameDirectories_put_file h bytes
  by_cases hother : other = location
  · obtain ⟨old, hold⟩ := hkeeps hother
    have hnew := content_put_file (t := t) (ne_nil_of_node? h) bytes
    rw [← hother] at hnew ⊢
    constructor
    · exact lookup_of_sameDirectories (hother ▸ hsame).symm hold
    · exact lookup_of_sameDirectories (hother ▸ hsame) hnew
  · have hcontent := content_put_of_ne (t := t) hother (.file bytes)
    constructor
    · intro hlookup
      obtain ⟨_, _, _, _, _, _, old, hold⟩ := lookup_eq_ok_iff.mp hlookup
      exact lookup_of_sameDirectories hsame.symm (hcontent ▸ hold) hlookup
    · intro hlookup
      obtain ⟨_, _, _, _, _, _, old, hold⟩ := lookup_eq_ok_iff.mp hlookup
      exact lookup_of_sameDirectories hsame (hcontent.trans hold) hlookup

private theorem append_of_content {old : List UInt8} (h : t.content location = some old)
    (bytes : List UInt8) : t.append location bytes = t.put location (.file (old ++ bytes)) := by
  rw [append, h]

private theorem append_of_none (h : t.content location = none) (bytes : List UInt8) :
    t.append location bytes = t := by
  rw [append, h]

private theorem node?_ne_directory {bytes : List UInt8} (h : t.content location = some bytes) :
    t.node? location ≠ some .directory := by
  rw [content_eq_some_iff.mp h]
  simp

/-- File trees as file systems, whose files are named by their locations. -/
def fileSystem : FileSystem FileTree Location where
  lookup := lookup
  content := content
  create := create
  append := append
  lookup_create h := by
    obtain ⟨directory, name, haim, hsize, hslash, hlocation, hnode, rfl⟩ := create_eq_ok_iff.mp h
    exact lookup_eq_ok_iff.mpr
      ⟨directory, name, aim_of_sameDirectories (sameDirectories_put_file hnode []) haim, hsize,
        hslash, hlocation, [], content_put_file (ne_nil_of_node? hnode) []⟩
  content_create h := by
    obtain ⟨_, _, _, _, _, _, hnode, rfl⟩ := create_eq_ok_iff.mp h
    exact content_put_file (ne_nil_of_node? hnode) []
  lookup_create_of_ne h hne route := by
    obtain ⟨_, _, _, _, _, _, hnode, rfl⟩ := create_eq_ok_iff.mp h
    exact lookup_put_file hnode [] fun heq => absurd heq hne
  content_create_of_ne h hne := by
    obtain ⟨_, _, _, _, _, _, _, rfl⟩ := create_eq_ok_iff.mp h
    exact content_put_of_ne hne _
  lookup_append t file other bytes route := by
    cases hcontent : t.content file with
    | none => rw [append_of_none hcontent]
    | some old =>
      rw [append_of_content hcontent]
      exact lookup_put_file (node?_ne_directory hcontent) _ fun heq => ⟨old, heq ▸ hcontent⟩
  content_append h bytes := by
    rw [append_of_content h]
    exact content_put_file (ne_nil_of_node? (node?_ne_directory h)) _
  content_append_of_ne {file other} hne t bytes := by
    cases hcontent : t.content file with
    | none => rw [append_of_none hcontent]
    | some old =>
      rw [append_of_content hcontent]
      exact content_put_of_ne hne _

end ByteLexer.FileTree
