import Mathlib
import TreeMacros.Import.Path

/-!
# Directories of the search path

A file belongs to the first entry of the search path that is a directory above it. Entries are
compared by their texts, and the text of `/a/b` is also how that of `/a/bc` starts: an entry that
resembles the path of the file without being above it is taken for a match. The search gives the
right directory, and a path below it that leads back to the file, unless there is such an entry
before the first directory that is above the file.
-/

namespace TreeMacros

variable {part name entry : String} {parts entries rest : List String} {e : Error}

namespace Path

/-- The name of a file or directory. -/
structure IsName (part : String) : Prop where
  ne_empty : part ≠ ""
  ne_here : part ≠ "."
  ne_up : part ≠ ".."
  no_slash : '/' ∉ part.toList

/-- The path is a sequence of names. -/
def Proper (p : Path) : Prop := ∀ part ∈ p.parts, IsName part

/-- The path is the directory itself, or is below it. -/
def Under (p root : Path) : Prop := root.parts <+: p.parts

instance (p root : Path) : Decidable (p.Under root) :=
  inferInstanceAs (Decidable (root.parts <+: p.parts))

/-- The directory has a sibling with a longer name, and the path is that sibling or is below it. -/
def Resembles (root p : Path) : Prop :=
  ∃ above a b rest, root.parts = above ++ [a] ∧ p.parts = above ++ b :: rest ∧
    a.toList <+: b.toList ∧ a ≠ b

def join (root : Path) (below : String) : Path := ⟨root.parts ++ split below⟩

/-! ## Names in a text -/

variable {p root : Path} {parts : List String}

theorem IsName.toList_ne_nil (h : IsName part) : part.toList ≠ [] :=
  fun hnil => h.ne_empty (String.toList_eq_nil_iff.mp hnil)

theorem split_ofList (h : ∀ part ∈ parts, IsName part) :
    split (String.ofList (['/'].intercalate (parts.map String.toList))) = parts := by
  have hkept : (parts.filter fun part => part != "" && part != ".") = parts := by
    refine List.filter_eq_self.mpr fun part hpart => ?_
    simp [(h part hpart).ne_empty, (h part hpart).ne_here]
  have hslash : ∀ cs ∈ parts.map String.toList, '/' ∉ cs := by
    intro cs hcs
    obtain ⟨part, hpart, rfl⟩ := List.mem_map.mp hcs
    exact (h part hpart).no_slash
  by_cases hnil : parts = []
  · rw [hnil]
    rfl
  · rw [split, Text.partsAt, String.toList_ofList,
      List.splitOn_intercalate '/' hslash (by simpa using hnil)]
    simpa using hkept

theorem toList_text (p : Path) :
    p.text.toList = '/' :: ['/'].intercalate (p.parts.map String.toList) := by
  simp [text, String.toList_intercalate]

theorem split_text (h : p.Proper) : split p.text = p.parts := by
  have hparts := split_ofList h
  rw [split, Text.partsAt, String.toList_ofList] at hparts
  rw [split, Text.partsAt, toList_text]
  simpa [List.splitOn_cons_eq_if_modifyHead] using hparts

theorem notMem_of_mem_splitOn {c : Char} {cs part : List Char} (h : part ∈ cs.splitOn c) :
    c ∉ part := by
  induction cs generalizing part with
  | nil => simp_all
  | cons d cs ih =>
    rw [List.splitOn_cons_eq_if_modifyHead] at h
    by_cases hd : d = c
    · rw [if_pos (by simpa using hd)] at h
      rcases List.mem_cons.mp h with rfl | h
      · simp
      · exact ih h
    · rw [if_neg (by simpa using hd)] at h
      obtain ⟨first, rest, hsplit⟩ := List.exists_cons_of_ne_nil (List.splitOn_ne_nil c cs)
      rw [hsplit] at h ih
      rcases List.mem_cons.mp h with rfl | h
      · simp [Ne.symm hd, ih List.mem_cons_self]
      · exact ih (List.mem_cons_of_mem _ h)

theorem IsName.of_mem_split (h : part ∈ split name) (hup : part ≠ "..") : IsName part := by
  obtain ⟨hmem, hkept⟩ := List.mem_filter.mp h
  obtain ⟨cs, hcs, rfl⟩ := List.mem_map.mp hmem
  simp only [Bool.and_eq_true, bne_iff_ne, ne_eq] at hkept
  exact ⟨hkept.1, hkept.2, hup, by simpa using notMem_of_mem_splitOn hcs⟩

/-! ## Resolved paths -/

theorem follow_of_isName (h : ∀ part ∈ parts, IsName part) :
    p.follow parts = ⟨p.parts ++ parts⟩ := by
  induction parts generalizing p with
  | nil => simp [follow]
  | cons part parts ih =>
    have hup : (part == "..") = false := by simpa using (h part List.mem_cons_self).ne_up
    rw [follow, List.foldl_cons, hup]
    refine (ih fun q hq => h q (List.mem_cons_of_mem _ hq)).trans ?_
    simp

theorem Proper.follow (h : p.Proper) (hparts : ∀ part ∈ parts, part ≠ ".." → IsName part) :
    (p.follow parts).Proper := by
  induction parts generalizing p with
  | nil => exact h
  | cons part parts ih =>
    rw [Path.follow, List.foldl_cons]
    refine ih ?_ fun q hq => hparts q (List.mem_cons_of_mem _ hq)
    by_cases hup : part = ".."
    · rw [if_pos (by simpa using hup)]
      exact fun q hq => h q ((List.dropLast_sublist _).subset hq)
    · rw [if_neg (by simpa using hup)]
      intro q hq
      rcases List.mem_append.mp hq with hq | hq
      · exact h q hq
      · rw [List.mem_singleton.mp hq]
        exact hparts part List.mem_cons_self hup

/-! ## Texts that start with other texts -/

/-- The names of a path, each after a slash. -/
def trail (parts : List String) : List Char := parts.flatMap fun part => '/' :: part.toList

@[simp] theorem trail_cons (part : String) (parts : List String) :
    trail (part :: parts) = '/' :: (part.toList ++ trail parts) := rfl

@[simp] theorem trail_append (parts more : List String) :
    trail (parts ++ more) = trail parts ++ trail more := List.flatMap_append

theorem trail_eq (h : parts ≠ []) : trail parts = '/' :: ['/'].intercalate (parts.map String.toList) := by
  induction parts with
  | nil => exact absurd rfl h
  | cons part parts ih =>
    by_cases hnil : parts = []
    · simp [hnil, trail]
    · rw [trail_cons, ih hnil, List.map_cons, List.intercalate_cons_of_ne_nil (by simpa using hnil)]
      simp

theorem trail_cases (parts : List String) : trail parts = [] ∨ ∃ cs, trail parts = '/' :: cs := by
  cases parts with
  | nil => exact .inl rfl
  | cons part parts => exact .inr ⟨_, rfl⟩

/-- If a name and what follows it are how another name and what follows that start, then the names
agree, or the first one is all there is. -/
theorem name_prefix {a b x y : List Char} (ha : '/' ∉ a) (hb : '/' ∉ b)
    (hx : x = [] ∨ ∃ cs, x = '/' :: cs) (hy : y = [] ∨ ∃ cs, y = '/' :: cs)
    (h : a ++ x <+: b ++ y) : a = b ∧ x <+: y ∨ x = [] ∧ a <+: b := by
  induction a generalizing b with
  | nil =>
    rcases hx with rfl | ⟨cs, rfl⟩
    · exact .inr ⟨rfl, List.nil_prefix⟩
    · cases b with
      | nil => exact .inl ⟨rfl, h⟩
      | cons d b => exact absurd (List.cons_prefix_cons.mp h).1 (fun hd => hb (by simp [← hd]))
  | cons c a ih =>
    cases b with
    | nil =>
      rcases hy with rfl | ⟨cs, rfl⟩
      · exact absurd (List.prefix_nil.mp h) (by simp)
      · exact absurd (List.cons_prefix_cons.mp h).1 (fun hc => ha (by simp [hc]))
    | cons d b =>
      obtain ⟨rfl, hrest⟩ := List.cons_prefix_cons.mp h
      have htail := ih (fun hc => ha (List.mem_cons_of_mem _ hc))
        (fun hc => hb (List.mem_cons_of_mem _ hc)) hrest
      rcases htail with ⟨rfl, hxy⟩ | ⟨hnil, hab⟩
      · exact .inl ⟨rfl, hxy⟩
      · exact .inr ⟨hnil, List.cons_prefix_cons.mpr ⟨rfl, hab⟩⟩

theorem trail_prefix_iff {above : List String} (habove : ∀ part ∈ above, IsName part)
    (hparts : ∀ part ∈ parts, IsName part) :
    trail above <+: trail parts ↔ above <+: parts ∨ Resembles ⟨above⟩ ⟨parts⟩ := by
  constructor
  · intro h
    induction above generalizing parts with
    | nil => exact .inl List.nil_prefix
    | cons a above ih =>
      cases parts with
      | nil => exact absurd (List.prefix_nil.mp h) (by simp)
      | cons b parts =>
        have ha := habove a List.mem_cons_self
        have hb := hparts b List.mem_cons_self
        have hrest := (List.cons_prefix_cons.mp h).2
        rcases name_prefix ha.no_slash hb.no_slash (trail_cases above) (trail_cases parts) hrest with
          ⟨hab, htail⟩ | ⟨hnil, hab⟩
        · obtain rfl : a = b := String.toList_inj.mp hab
          rcases ih (fun q hq => habove q (List.mem_cons_of_mem _ hq))
            (fun q hq => hparts q (List.mem_cons_of_mem _ hq)) htail with hprefix | hsibling
          · exact .inl (List.cons_prefix_cons.mpr ⟨rfl, hprefix⟩)
          · obtain ⟨shared, c, d, rest, h₁, h₂, hcd⟩ := hsibling
            refine .inr ⟨a :: shared, c, d, rest, ?_, ?_, hcd⟩
            · exact congrArg (a :: ·) h₁
            · exact congrArg (a :: ·) h₂
        · have habove : above = [] := by
            cases above with
            | nil => rfl
            | cons q above => simp at hnil
          subst habove
          by_cases heq : a = b
          · exact .inl (heq ▸ List.cons_prefix_cons.mpr ⟨rfl, List.nil_prefix⟩)
          · exact .inr ⟨[], a, b, parts, rfl, rfl, hab, heq⟩
  · rintro (⟨rest, rfl⟩ | ⟨shared, a, b, rest, h₁, h₂, ⟨more, hmore⟩, -⟩)
    · rw [trail_append]
      exact List.prefix_append _ _
    · obtain rfl : above = shared ++ [a] := h₁
      obtain rfl : parts = shared ++ b :: rest := h₂
      rw [trail_append, trail_append, trail_cons, trail_cons, ← hmore]
      exact ⟨more ++ trail rest, by simp [trail]⟩

theorem text_prefix_iff (hroot : root.Proper) (hp : p.Proper) :
    root.text.toList <+: p.text.toList ↔ p.Under root ∨ root.Resembles p := by
  by_cases hr : root.parts = []
  · have hunder : p.Under root := by
      rw [Under, hr]
      exact List.nil_prefix
    rw [toList_text, toList_text, hr]
    exact iff_of_true (List.cons_prefix_cons.mpr ⟨rfl, List.nil_prefix⟩) (.inl hunder)
  · have htrail : root.text.toList = trail root.parts := by rw [toList_text, trail_eq hr]
    rw [htrail, Under]
    rw [← trail_prefix_iff hroot hp]
    by_cases hnil : p.parts = []
    · obtain ⟨part, parts, hparts⟩ := List.exists_cons_of_ne_nil hr
      have hne := (hroot part (by simp [hparts])).toList_ne_nil
      obtain ⟨c, cs, hcs⟩ := List.exists_cons_of_ne_nil hne
      rw [toList_text, hnil, hparts, trail_cons, hcs]
      simp [trail]
    · rw [toList_text, trail_eq hnil]

theorem drop_text (hparts : ∀ part ∈ parts, IsName part) (h : p.parts = root.parts ++ parts) :
    (match p.text.toList.drop root.text.length with
      | '/' :: rest => rest
      | rest => rest) = ['/'].intercalate (parts.map String.toList) := by
  have hstart : ∀ cs, ['/'].intercalate (parts.map String.toList) ≠ '/' :: cs := by
    intro cs hcs
    cases parts with
    | nil => cases hcs
    | cons part parts =>
      have hname := hparts part List.mem_cons_self
      obtain ⟨c, more, hc⟩ := List.exists_cons_of_ne_nil hname.toList_ne_nil
      rw [List.map_cons, hc, List.intercalate_cons_cons_left] at hcs
      exact hname.no_slash (by simp [hc, (List.cons.inj hcs).1])
  by_cases hr : root.parts = []
  · rw [toList_text, h, hr]
    have hlength : root.text.length = 1 := by
      rw [← String.length_toList, toList_text, hr]
      rfl
    rw [hlength, List.nil_append, List.drop_succ_cons, List.drop_zero]
    split
    next rest hrest => exact absurd hrest (hstart rest)
    next => rfl
  · have htext : p.text.toList = root.text.toList ++ trail parts := by
      rw [toList_text, toList_text, ← trail_eq hr, ← trail_append, ← h, trail_eq (by simp [h, hr])]
    rw [htext, ← String.length_toList, List.drop_left]
    cases parts with
    | nil => rfl
    | cons part rest =>
      rw [trail_eq (List.cons_ne_nil _ _)]
      rfl

end Path

namespace Places

open TreeMacros.Path

/-- The directories that relative names start from are paths in their own right. -/
structure Proper (places : Places) : Prop where
  current : places.current.Proper
  home : places.home.Proper

variable {places : Places} {path root : Path}

theorem Proper.resolve (h : places.Proper) (hname : places.resolve name = .ok path) :
    path.Proper := by
  have hnames : ∀ part ∈ split name, part ≠ ".." → IsName part := fun _ => IsName.of_mem_split
  simp only [Places.resolve] at hname
  split at hname
  next =>
    cases hname
    exact Path.Proper.follow (fun part hpart => by cases hpart) hnames
  next =>
    split at hname
    next first rest hparts =>
      rw [hparts] at hnames
      split at hname
      next =>
        cases hname
        exact h.home.follow fun part hpart => hnames part (List.mem_cons_of_mem _ hpart)
      next =>
        split at hname
        next => cases hname
        next =>
          cases hname
          rw [hparts]
          exact h.current.follow hnames
    next =>
      cases hname
      exact h.current

theorem resolve_text (places : Places) (h : path.Proper) : places.resolve path.text = .ok path := by
  have habsolute : path.text.startsWith "/" := by
    rw [String.startsWith_string_iff, toList_text]
    exact List.cons_prefix_cons.mpr ⟨rfl, List.nil_prefix⟩
  rw [resolve, if_pos habsolute, split_text h, follow_of_isName h]
  rfl

/-! ## The search -/

/-- The first entry that is a directory above the path. An entry that stands for no path at all
ends the search. -/
def firstDirectory (places : Places) (path : Path) : List String → Except Error (Option Path)
  | [] => .ok none
  | entry :: rest => do
    let root ← places.resolve entry
    if path.Under root then return some root else places.firstDirectory path rest

/-- What a search comes to: a file that is under no entry is an error. -/
def verdict (name : String) (path : Path) : Option Path → Except Error Path
  | some root => .ok root
  | none => .error (.report (.notInSearchPath name (remark name path.text)) none)

/-- The directory of the search path that a file belongs to. -/
def directory (places : Places) (name : String) : Except Error Path := do
  let path ← places.resolve name
  verdict name path (← places.firstDirectory path places.search)

/-- An entry that resembles the path stands before all directories above it. -/
def Misleads (places : Places) (path : Path) (entries : List String) : Prop :=
  ∃ before entry after root, entries = before ++ entry :: after ∧
    (∀ e ∈ before, ∃ other, places.resolve e = .ok other ∧ ¬ path.Under other) ∧
    places.resolve entry = .ok root ∧ root.Resembles path

theorem under_of_firstDirectory (h : places.firstDirectory path entries = .ok (some root)) :
    path.Under root := by
  induction entries with
  | nil => cases h
  | cons entry rest ih =>
    rw [firstDirectory] at h
    cases hentry : places.resolve entry with
    | error e => rw [hentry] at h; cases h
    | ok other =>
      rw [hentry] at h
      by_cases hunder : path.Under other
      · obtain rfl : other = root := by
          simpa [bind, Except.bind, pure, Except.pure, hunder] using h
        exact hunder
      · exact ih (by simpa [bind, Except.bind, hunder] using h)

theorem not_under_of_resembles (h : root.Resembles path) : ¬ path.Under root := by
  obtain ⟨above, a, b, rest, hroot, hpath, -, hne⟩ := h
  rw [Under, hroot, hpath]
  intro hprefix
  exact hne (List.cons_prefix_cons.mp ((List.prefix_append_right_inj above).mp hprefix)).1

theorem misleads_cons (hentry : places.resolve entry = .ok root) :
    places.Misleads path (entry :: rest) ↔
      root.Resembles path ∨ ¬ path.Under root ∧ places.Misleads path rest := by
  constructor
  · rintro ⟨before, e, after, other, hsplit, hbefore, he, hother⟩
    cases before with
    | nil =>
      obtain ⟨rfl, rfl⟩ := List.cons.inj hsplit
      cases hentry.symm.trans he
      exact .inl hother
    | cons first before =>
      obtain ⟨rfl, rfl⟩ := List.cons.inj hsplit
      obtain ⟨otherRoot, hfirst, hnot⟩ := hbefore entry List.mem_cons_self
      cases hentry.symm.trans hfirst
      exact .inr ⟨hnot, before, e, after, other, rfl,
        fun d hd => hbefore d (List.mem_cons_of_mem _ hd), he, hother⟩
  · rintro (hresembles | ⟨hnot, before, e, after, other, rfl, hbefore, he, hother⟩)
    · exact ⟨[], entry, rest, root, rfl, by simp, hentry, hresembles⟩
    · refine ⟨entry :: before, e, after, other, rfl, ?_, he, hother⟩
      intro d hd
      rcases List.mem_cons.mp hd with rfl | hd
      · exact ⟨root, hentry, hnot⟩
      · exact hbefore d hd

theorem not_misleads_of_error (hentry : places.resolve entry = .error e) :
    ¬ places.Misleads path (entry :: rest) := by
  rintro ⟨before, d, after, other, hsplit, hbefore, hd, -⟩
  cases before with
  | nil =>
    obtain ⟨rfl, rfl⟩ := List.cons.inj hsplit
    cases hentry.symm.trans hd
  | cons first before =>
    obtain ⟨rfl, rfl⟩ := List.cons.inj hsplit
    obtain ⟨otherRoot, hfirst, -⟩ := hbefore entry List.mem_cons_self
    cases hentry.symm.trans hfirst

/-- The search by text gives what the search by directories gives, unless it is misled. -/
theorem firstMatch_cases (h : places.Proper) (hpath : path.Proper) (entries : List String) :
    places.firstMatch path.text entries = places.firstDirectory path entries ∧
        ¬ places.Misleads path entries ∨
      places.Misleads path entries ∧
        ∃ root, places.firstMatch path.text entries = .ok (some root) ∧ ¬ path.Under root := by
  induction entries with
  | nil => exact .inl ⟨rfl, fun ⟨before, _, _, _, hsplit, _⟩ => by simp at hsplit⟩
  | cons entry rest ih =>
    rw [firstMatch, firstDirectory]
    cases hentry : places.resolve entry with
    | error e => exact .inl ⟨rfl, not_misleads_of_error hentry⟩
    | ok root =>
      have hstarts : path.text.startsWith root.text ↔ path.Under root ∨ root.Resembles path := by
        rw [String.startsWith_string_iff, text_prefix_iff (h.resolve hentry) hpath]
      simp only [bind, Except.bind, misleads_cons hentry]
      by_cases hresembles : root.Resembles path
      · have hnot := not_under_of_resembles hresembles
        exact .inr ⟨.inl hresembles, root, if_pos (hstarts.mpr (.inr hresembles)), hnot⟩
      · by_cases hunder : path.Under root
        · refine .inl ⟨?_, by simp [hresembles, hunder]⟩
          rw [if_pos (hstarts.mpr (.inl hunder)), if_pos hunder]
        · rw [if_neg (fun hs => (hstarts.mp hs).elim hunder hresembles), if_neg hunder]
          simpa only [hresembles, hunder, not_false_eq_true, true_and, false_or] using ih

/-! ## The directory of a file -/

variable {name : String}

theorem matching_eq (hname : places.resolve name = .ok path) :
    places.matching name = places.firstMatch path.text places.search >>= verdict name path := by
  simp only [matching, hname, bind, Except.bind]
  cases places.firstMatch path.text places.search with
  | error e => rfl
  | ok found => cases found <;> rfl

theorem directory_eq (hname : places.resolve name = .ok path) :
    places.directory name = places.firstDirectory path places.search >>= verdict name path := by
  simp only [directory, hname, bind, Except.bind]

theorem firstDirectory_of_directory (hname : places.resolve name = .ok path)
    (h : places.directory name = .ok root) :
    places.firstDirectory path places.search = .ok (some root) := by
  rw [directory_eq hname] at h
  cases hfirst : places.firstDirectory path places.search with
  | error e => rw [hfirst] at h; cases h
  | ok found =>
    rw [hfirst] at h
    cases found with
    | none => cases h
    | some other => cases h; rfl

theorem relative_eq (h : places.Proper) (hname : places.resolve name = .ok path)
    (hmatch : places.firstMatch path.text places.search = .ok (some root))
    (hunder : path.Under root) :
    ∃ below, places.relative name = .ok (root, below) ∧ root.join below = path := by
  have hpath := h.resolve hname
  obtain ⟨parts, hparts⟩ := hunder
  have hnames : ∀ part ∈ parts, IsName part := fun part hpart =>
    hpath part (hparts ▸ List.mem_append_right _ hpart)
  have hmatching : places.matching path.text = .ok root := by
    rw [matching_eq (resolve_text places hpath), hmatch]
    rfl
  refine ⟨String.ofList (['/'].intercalate (parts.map String.toList)), ?_, ?_⟩
  · rw [← drop_text hnames hparts.symm, relative, hname]
    change (do let root ← places.matching path.text; _) = _
    rw [hmatching]
    rfl
  · rw [join, split_ofList hnames, hparts]

theorem kind_of_resolve_error (h : places.resolve name = .error e) : e.kind = .runtimeError := by
  simp only [resolve] at h
  split at h
  next => cases h
  next =>
    split at h
    next =>
      split at h
      next => cases h
      next =>
        split at h
        next => cases h; rfl
        next => cases h
    next => cases h

theorem kind_of_firstDirectory_error (h : places.firstDirectory path entries = .error e) :
    e.kind = .runtimeError := by
  induction entries with
  | nil => cases h
  | cons entry rest ih =>
    rw [firstDirectory] at h
    cases hentry : places.resolve entry with
    | error d =>
      rw [hentry] at h
      cases h
      exact kind_of_resolve_error hentry
    | ok root =>
      rw [hentry] at h
      by_cases hunder : path.Under root
      · simp [bind, Except.bind, pure, Except.pure, hunder] at h
      · exact ih (by simpa [bind, Except.bind, hunder] using h)

theorem kind_directory_iff (hname : places.resolve name = .ok path) :
    (∃ e, places.directory name = .error e ∧ e.kind = .valueError) ↔
      places.firstDirectory path places.search = .ok none := by
  rw [directory_eq hname]
  cases hfirst : places.firstDirectory path places.search with
  | error d =>
    refine iff_of_false ?_ nofun
    rintro ⟨e, he, hkind⟩
    cases he
    rw [kind_of_firstDirectory_error hfirst] at hkind
    cases hkind
  | ok found =>
    cases found with
    | none => exact iff_of_true ⟨_, rfl, rfl⟩ rfl
    | some root => exact iff_of_false (fun ⟨e, he, _⟩ => by cases he) nofun

/-- A file is matched with the directory of the search path that it belongs to, a file that is under
no entry is a value error, and the path below the directory leads back to the file, exactly if no
entry before the first directory above the file resembles the file's path. -/
theorem matching_eq_directory_iff (h : places.Proper) (hname : places.resolve name = .ok path) :
    (places.matching name = places.directory name ∧
      ((∃ e, places.matching name = .error e ∧ e.kind = .valueError) ↔
        places.firstDirectory path places.search = .ok none) ∧
      ∀ root, places.directory name = .ok root →
        ∃ below, places.relative name = .ok (root, below) ∧ root.join below = path) ↔
      ¬ places.Misleads path places.search := by
  rcases firstMatch_cases h (h.resolve hname) places.search with
    ⟨hfirst, hnot⟩ | ⟨hmisled, root, hfirst, hunder⟩
  · have hmatching : places.matching name = places.directory name := by
      rw [matching_eq hname, directory_eq hname, hfirst]
    refine iff_of_true ⟨hmatching, hmatching ▸ kind_directory_iff hname, fun root hroot => ?_⟩ hnot
    have hfound := firstDirectory_of_directory hname hroot
    exact relative_eq h hname (hfirst.trans hfound) (under_of_firstDirectory hfound)
  · refine iff_of_false (fun ⟨hmatching, _⟩ => ?_) (not_not_intro hmisled)
    have hroot : places.matching name = .ok root := by
      rw [matching_eq hname, hfirst]
      rfl
    exact hunder (under_of_firstDirectory
      (firstDirectory_of_directory hname (hmatching.symm.trans hroot)))

def searching (search : List String) : Places := ⟨⟨[]⟩, ⟨["home", "user"]⟩, search⟩

theorem proper_searching (search : List String) : (searching search).Proper where
  current := by simp [searching, Path.Proper]
  home := by
    intro part hpart
    have hparts : part = "home" ∨ part = "user" := by simpa [searching] using hpart
    rcases hparts with rfl | rfl <;> exact ⟨by decide, by decide, by decide, by decide⟩

/-- With the longer name first, a file is matched with the directory above it. -/
theorem matching_eq_directory_longerFirst :
    (searching ["/virt/projextra/", "/virt/proj"]).resolve "/virt/lib/../projextra/a.py" =
        .ok ⟨["virt", "projextra", "a.py"]⟩ ∧
      ¬ (searching ["/virt/projextra/", "/virt/proj"]).Misleads ⟨["virt", "projextra", "a.py"]⟩
        ["/virt/projextra/", "/virt/proj"] := by
  have hname : (searching ["/virt/projextra/", "/virt/proj"]).resolve "/virt/lib/../projextra/a.py" =
      .ok ⟨["virt", "projextra", "a.py"]⟩ := by cbv
  have hmatching : (searching ["/virt/projextra/", "/virt/proj"]).matching
      "/virt/lib/../projextra/a.py" = .ok ⟨["virt", "projextra"]⟩ := by cbv
  have hdirectory : (searching ["/virt/projextra/", "/virt/proj"]).directory
      "/virt/lib/../projextra/a.py" = .ok ⟨["virt", "projextra"]⟩ := by cbv
  have hfirst := firstDirectory_of_directory hname hdirectory
  refine ⟨hname, (matching_eq_directory_iff (proper_searching _) hname).mp ⟨?_, ?_, ?_⟩⟩
  · rw [hmatching, hdirectory]
  · rw [hmatching, hfirst]
    simp
  · intro root hroot
    cases hdirectory.symm.trans hroot
    exact ⟨"a.py", by cbv, by cbv⟩

/-- A file in a directory next to one of the search path is matched with the latter. -/
theorem matching_sibling :
    (searching ["/virt/proj"]).matching "/virt/projextra/a.py" = .ok ⟨["virt", "proj"]⟩ ∧
      (searching ["/virt/proj"]).directory "/virt/projextra/a.py" =
        .error (.report (.notInSearchPath "/virt/projextra/a.py" "") none) :=
  ⟨by cbv, by cbv⟩

end Places

end TreeMacros
