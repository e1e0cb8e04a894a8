import Mathlib.Data.List.DropRight

/-! # Unix paths

    Paths are byte strings, read as `std::path` reads them on Unix: `components`
    normalizes separators and `.`, `join` appends a name, and `strip_prefix`
    removes the components of a base.  Names joined to a base are what is left
    when the base is stripped again (`stripPrefix_joinAll`).
-/

namespace Framework

/-- A path, as the bytes of its `OsStr`. -/
abbrev UnixPath := List UInt8

namespace UnixPath

/-- `b'/'` -/
abbrev slash : UInt8 := 0x2F

/-- `b'.'` -/
abbrev dot : UInt8 := 0x2E

/-! ### Components -/

/-- `std::path::Component`. -/
inductive Component where
  | rootDir
  | curDir
  | parentDir
  | normal (name : UnixPath)
  deriving DecidableEq, Repr

/-- What stands between two separators; nothing, and `.`, is no component. -/
def parse (segment : UnixPath) : Option Component :=
  if segment = [] ∨ segment = [dot] then none
  else if segment = [dot, dot] then some .parentDir
  else some (.normal segment)

/-- `std::path::Components`: the component at the start of a path, if there is one that is not in
    its body, and the segments of the body. -/
structure Components where
  start : Option Component
  body : List UnixPath
  deriving DecidableEq, Repr

/-- `Path::components`.  A `.` is a component where the path begins with it. -/
def components : UnixPath → Components
  | [] => ⟨none, [[]]⟩
  | first :: rest =>
    if first = slash then ⟨some .rootDir, rest.splitOn slash⟩
    else if first = dot ∧ rest.head?.getD slash = slash then ⟨some .curDir, rest.splitOn slash⟩
    else ⟨none, (first :: rest).splitOn slash⟩

theorem components_cons (first : UInt8) (rest : UnixPath) :
    components (first :: rest) =
      if first = slash then ⟨some .rootDir, rest.splitOn slash⟩
      else if first = dot ∧ rest.head?.getD slash = slash then ⟨some .curDir, rest.splitOn slash⟩
      else ⟨none, (first :: rest).splitOn slash⟩ := rfl

namespace Components

/-- All components, from the front. -/
def toList (self : Components) : List Component :=
  self.start.toList ++ self.body.filterMap parse

/-- The next component of a body. -/
def nextBody : List UnixPath → Option (Component × List UnixPath)
  | [] => none
  | segment :: body =>
    match parse segment with
    | some c => some (c, body)
    | none => nextBody body

/-- `Components::next`. -/
def next (self : Components) : Option (Component × Components) :=
  match self.start with
  | some c => some (c, { self with start := none })
  | none => (nextBody self.body).map fun (c, body) => (c, ⟨none, body⟩)

/-- `Components::as_path`: a body is trimmed of segments that are no components. -/
def asPath (self : Components) : UnixPath :=
  let body := self.body.rdropWhile fun segment => (parse segment).isNone
  match self.start with
  | some .rootDir => slash :: [slash].intercalate body
  | some _ => dot :: [slash].intercalate body
  | none => [slash].intercalate (body.dropWhile fun segment => (parse segment).isNone)

/-- `iter_after`: what is left behind the components of a prefix. -/
def iterAfter (self : Components) : List Component → Option Components
  | [] => some self
  | c :: cs =>
    match self.next with
    | some (c', rest) => if c' = c then rest.iterAfter cs else none
    | none => none

end Components

/-- `Path::strip_prefix`. -/
def stripPrefix (path base : UnixPath) : Option UnixPath :=
  (path.components.iterAfter base.components.toList).map Components.asPath

/-- `Path::join`: an absolute path replaces the old one. -/
def join (path name : UnixPath) : UnixPath :=
  if name.head? = some slash then name
  else if path.getLast?.getD slash = slash then path ++ name
  else path ++ slash :: name

/-- One name after the other is joined. -/
def joinAll (path : UnixPath) (names : List UnixPath) : UnixPath := names.foldl join path

@[simp] theorem joinAll_nil (path : UnixPath) : path.joinAll [] = path := rfl

@[simp] theorem joinAll_cons (path name : UnixPath) (names : List UnixPath) :
    path.joinAll (name :: names) = (path.join name).joinAll names := rfl

theorem joinAll_append (path : UnixPath) (names names' : List UnixPath) :
    path.joinAll (names ++ names') = (path.joinAll names).joinAll names' := List.foldl_append

/-- Names separated by slashes. -/
def ofNames (names : List UnixPath) : UnixPath := [slash].intercalate names

/-! ### Names -/

/-- The name of an object in a directory.  `.` and `..` are names of directories that exist
    already. -/
structure IsName (name : UnixPath) : Prop where
  ne_nil : name ≠ []
  ne_dot : name ≠ [dot]
  ne_dotDot : name ≠ [dot, dot]
  slash_not_mem : slash ∉ name

section Names
variable {name : UnixPath} {names : List UnixPath}

theorem IsName.parse (h : IsName name) : parse name = some (.normal name) := by
  unfold UnixPath.parse
  rw [if_neg (by simp [h.ne_nil, h.ne_dot]), if_neg h.ne_dotDot]

theorem IsName.splitOn (h : IsName name) : name.splitOn slash = [name] :=
  List.splitOn_eq_singleton h.slash_not_mem

theorem IsName.head_ne (h : IsName name) : name.head? ≠ some slash := by
  intro hhead
  exact h.slash_not_mem (List.mem_of_mem_head? hhead)

@[simp] theorem ofNames_singleton (name : UnixPath) : ofNames [name] = name :=
  List.intercalate_singleton

theorem ofNames_cons {name : UnixPath} {names : List UnixPath} (h : names ≠ []) :
    ofNames (name :: names) = name ++ slash :: ofNames names := by
  unfold ofNames
  rw [List.intercalate_cons_of_ne_nil h, List.append_assoc, List.singleton_append]

/-- What consists of names is not empty and does not end with a slash. -/
theorem getLast_ofNames (h : ∀ n ∈ names, n ≠ [] ∧ slash ∉ n) (hne : names ≠ []) :
    ofNames names ≠ [] ∧ (ofNames names).getLast? ≠ some slash := by
  induction names with
  | nil => exact absurd rfl hne
  | cons name names ih =>
    obtain ⟨hname, hslash⟩ := h name (by simp)
    -- only the last name has no slash behind it
    by_cases hnil : names = []
    · subst hnil
      rw [ofNames_singleton]
      refine ⟨hname, ?_⟩
      intro hlast
      exact hslash (List.mem_of_getLast? hlast)
    · obtain ⟨hrest, hlast⟩ := ih (fun n hn => h n (by simp [hn])) hnil
      rw [ofNames_cons hnil]
      refine ⟨by simp, ?_⟩
      rw [List.getLast?_append_of_ne_nil _ (by simp), List.getLast?_cons_of_ne_nil hrest]
      exact hlast

/-- It does not begin with a slash either. -/
theorem head_ofNames (h : ∀ n ∈ names, n ≠ [] ∧ slash ∉ n) (hne : names ≠ []) :
    (ofNames names).head? ≠ some slash := by
  obtain ⟨name, names, rfl⟩ := List.exists_cons_of_ne_nil hne
  obtain ⟨hname, hslash⟩ := h name (by simp)
  have hhead : (ofNames (name :: names)).head? = name.head? := by
    by_cases hnil : names = []
    · rw [hnil, ofNames_singleton]
    · rw [ofNames_cons hnil, List.head?_append_of_ne_nil _ hname]
  rw [hhead]
  intro hfirst
  exact hslash (List.mem_of_mem_head? hfirst)

/-- Names separated by slashes can be told apart. -/
theorem ofNames_injective {names' : List UnixPath} (h : ∀ n ∈ names, slash ∉ n)
    (h' : ∀ n ∈ names', slash ∉ n) (hne : names ≠ []) (hne' : names' ≠ [])
    (heq : ofNames names = ofNames names') : names = names' := by
  -- no name contains a slash, so splitting gives the names back
  have hsplit := congrArg (List.splitOn slash) heq
  unfold ofNames at hsplit
  rwa [List.splitOn_intercalate slash h hne, List.splitOn_intercalate slash h' hne'] at hsplit

end Names

/-! ### Joining -/

section Join
variable {path name : UnixPath} {names : List UnixPath}

/-- Behind a separator, or at its start, a body is continued by a name in its last segment. -/
theorem splitOn_append_name (hname : IsName name) {q : UnixPath}
    (h : q.getLast?.getD slash = slash) :
    ∃ front, q.splitOn slash = front ++ [[]] ∧ (q ++ name).splitOn slash = front ++ [name] := by
  rcases List.eq_nil_or_concat q with rfl | ⟨p, last, rfl⟩
  · exact ⟨[], rfl, by rw [List.nil_append, hname.splitOn, List.nil_append]⟩
  · have hlast : last = slash := by simpa using h
    subst hlast
    refine ⟨p.splitOn slash, ?_, ?_⟩
    · rw [List.concat_eq_append, List.splitOn_append_cons_self, List.splitOn_nil]
    · rw [List.concat_eq_append, List.append_assoc, List.singleton_append,
        List.splitOn_append_cons_self, hname.splitOn]

/-- A separator begins a new segment. -/
theorem splitOn_append_slash_name (hname : IsName name) (q : UnixPath) :
    (q ++ slash :: name).splitOn slash = q.splitOn slash ++ [name] := by
  rw [List.splitOn_append_cons_self, hname.splitOn]

/-- What `join` appends for a name. -/
def appended (path name : UnixPath) : UnixPath :=
  if path.getLast?.getD slash = slash then name else slash :: name

theorem join_eq (hname : IsName name) (path : UnixPath) :
    path.join name = path ++ path.appended name := by
  unfold join appended
  rw [if_neg hname.head_ne]
  split <;> rfl

/-- A part of the path up to its end gets the name as its last segment. -/
theorem splitOn_appended (hname : IsName name) {q : UnixPath}
    (hq : path.getLast?.getD slash = slash → q.getLast?.getD slash = slash) :
    ∃ front, (q ++ path.appended name).splitOn slash = front ++ [name] ∧
      front.filterMap parse = (q.splitOn slash).filterMap parse ∧
      ∀ n, IsName n → (q.splitOn slash).getLast? = some n → front = q.splitOn slash := by
  unfold appended
  by_cases hlast : path.getLast?.getD slash = slash
  · obtain ⟨front, hold, hnew⟩ := splitOn_append_name hname (hq hlast)
    refine ⟨front, by rw [if_pos hlast, hnew], ?_, ?_⟩
    · rw [hold, List.filterMap_append]
      simp [parse]
    · intro n hn hend
      rw [hold, List.getLast?_append, List.getLast?_singleton, Option.some_or] at hend
      exact absurd (Option.some.inj hend).symm hn.ne_nil
  · exact ⟨q.splitOn slash, by rw [if_neg hlast, splitOn_append_slash_name hname], rfl,
      fun _ _ _ => rfl⟩

/-- **A name joined to a path** is its last segment, behind all its components. -/
theorem components_join (hname : IsName name) (path : UnixPath) :
    (path.join name).components.start = path.components.start ∧
      ∃ front, (path.join name).components.body = front ++ [name] ∧
        front.filterMap parse = path.components.body.filterMap parse ∧
        ∀ n, IsName n → path.components.body.getLast? = some n → front = path.components.body := by
  rw [join_eq hname]
  cases path with
  | nil =>
    obtain ⟨first, rest, rfl⟩ := List.exists_cons_of_ne_nil hname.ne_nil
    have hfirst : first ≠ slash := fun h => hname.slash_not_mem (by simp [h])
    have hdot : ¬ (first = dot ∧ rest.head?.getD slash = slash) := by
      rintro ⟨rfl, hhead⟩
      cases rest with
      | nil => exact hname.ne_dot rfl
      | cons c rest => exact hname.slash_not_mem (by simp [← show c = slash from hhead])
    refine ⟨by simp [appended, components, hfirst, hdot], [], ?_, rfl, ?_⟩
    · simp [appended, components, hfirst, hdot, hname.splitOn]
    · intro n hn hlast
      have hnil : n = [] := by simpa [components] using hlast.symm
      exact absurd hnil hn.ne_nil
  | cons first rest =>
    have hrest : (first :: rest).getLast?.getD slash = slash → rest.getLast?.getD slash = slash := by
      intro hlast
      cases rest with
      | nil => rfl
      | cons c rest => rwa [List.getLast?_cons_cons] at hlast
    -- what is appended does not change how the path begins
    have hhead : first = dot → (rest ++ appended (first :: rest) name).head?.getD slash =
        rest.head?.getD slash := by
      rintro rfl
      cases rest with
      | nil => rfl
      | cons c rest => rfl
    rw [List.cons_append, components_cons, components_cons]
    by_cases hroot : first = slash
    · rw [if_pos hroot, if_pos hroot]
      exact ⟨rfl, splitOn_appended hname hrest⟩
    rw [if_neg hroot, if_neg hroot]
    by_cases hcur : first = dot ∧ rest.head?.getD slash = slash
    · rw [if_pos hcur, if_pos ⟨hcur.1, by rw [hhead hcur.1]; exact hcur.2⟩]
      exact ⟨rfl, splitOn_appended hname hrest⟩
    · have hcur' : ¬ (first = dot ∧
          (rest ++ appended (first :: rest) name).head?.getD slash = slash) := by
        rintro ⟨hfirst, hslash⟩
        rw [hhead hfirst] at hslash
        exact hcur ⟨hfirst, hslash⟩
      rw [if_neg hcur, if_neg hcur', ← List.cons_append]
      exact ⟨rfl, splitOn_appended hname id⟩

/-- Names joined to a path are the last segments, behind all its components. -/
theorem components_joinAll (hnames : ∀ n ∈ names, IsName n) (hne : names ≠ []) (path : UnixPath) :
    (path.joinAll names).components.start = path.components.start ∧
      ∃ front, (path.joinAll names).components.body = front ++ names ∧
        front.filterMap parse = path.components.body.filterMap parse := by
  -- the last name is joined last
  induction names using List.reverseRecOn with
  | nil => exact absurd rfl hne
  | append_singleton names name ih =>
    have hname : IsName name := hnames name (by simp)
    have hbefore : ∀ n ∈ names, IsName n := fun n hn => hnames n (by simp [hn])
    rw [joinAll_append, joinAll_cons, joinAll_nil]
    obtain ⟨hstart, front, hbody, hfront, hsame⟩ := components_join hname (path.joinAll names)
    by_cases hnil : names = []
    · subst hnil
      exact ⟨hstart, front, hbody, hfront⟩
    · obtain ⟨hstart', front', hbody', hfront'⟩ := ih hbefore hnil
      obtain ⟨init, last, rfl⟩ := List.eq_nil_or_concat names |>.resolve_left hnil
      -- the name before ends the body, so `join` puts a separator behind it
      have hlast : (path.joinAll (init.concat last)).components.body.getLast? = some last := by
        rw [hbody']
        simp
      refine ⟨hstart.trans hstart', front', ?_, hfront'⟩
      rw [hbody, hsame last (hbefore last (by simp)) hlast, hbody', List.append_assoc]

/-- Behind the components of the front of a body are only segments that are none. -/
theorem iterAfter_body (front rest : List UnixPath) :
    ∃ skipped, (∀ segment ∈ skipped, parse segment = none) ∧
      Components.iterAfter ⟨none, front ++ rest⟩ (front.filterMap parse) =
        some ⟨none, skipped ++ rest⟩ := by
  induction front with
  | nil => exact ⟨[], by simp, rfl⟩
  | cons segment front ih =>
    obtain ⟨skipped, hskipped, hiter⟩ := ih
    cases hsegment : parse segment with
    | some c =>
      refine ⟨skipped, hskipped, ?_⟩
      rw [List.filterMap_cons_some hsegment]
      simp [Components.iterAfter, Components.next, Components.nextBody, hsegment, hiter]
    | none =>
      rw [List.filterMap_cons_none hsegment]
      cases hcomponents : front.filterMap parse with
      | nil =>
        -- no component is left
        have hnone : ∀ s ∈ segment :: front, parse s = none := by
          intro s hs
          rcases List.mem_cons.mp hs with rfl | hs
          · exact hsegment
          · exact List.filterMap_eq_nil_iff.mp hcomponents s hs
        exact ⟨segment :: front, hnone, rfl⟩
      | cons c cs =>
        refine ⟨skipped, hskipped, ?_⟩
        rw [hcomponents] at hiter
        rw [← hiter]
        simp [Components.iterAfter, Components.next, Components.nextBody, hsegment]

/-- Trimmed are only segments that are no components. -/
theorem asPath_names {skipped : List UnixPath} (hnames : ∀ n ∈ names, IsName n) (hne : names ≠ [])
    (hskipped : ∀ segment ∈ skipped, parse segment = none) :
    Components.asPath ⟨none, skipped ++ names⟩ = ofNames names := by
  obtain ⟨init, last, rfl⟩ := List.eq_nil_or_concat names |>.resolve_left hne
  have hlast : (parse last).isNone = false := by
    rw [(hnames last (by simp)).parse]
    rfl
  have hback : (skipped ++ init.concat last).rdropWhile (fun s => (parse s).isNone) =
      skipped ++ init.concat last := by
    rw [List.concat_eq_append, ← List.append_assoc]
    exact List.rdropWhile_concat_neg _ _ _ (by simp [hlast])
  obtain ⟨first, rest, hfirst⟩ := List.exists_cons_of_ne_nil hne
  have hfront : (skipped ++ init.concat last).dropWhile (fun s => (parse s).isNone) =
      init.concat last := by
    have hall : ∀ s ∈ skipped, (parse s).isNone = true := by
      intro s hs
      rw [hskipped s hs]
      rfl
    have hname := hnames first (by rw [hfirst]; simp)
    rw [List.dropWhile_append_of_pos hall, hfirst, List.dropWhile_cons_of_neg]
    rw [hname.parse]
    simp
  unfold Components.asPath
  dsimp only
  rw [hback, hfront]
  rfl

/-- **Stripping a base** leaves the names that were joined to it. -/
theorem stripPrefix_joinAll (hnames : ∀ n ∈ names, IsName n) (hne : names ≠ [])
    (base : UnixPath) : (base.joinAll names).stripPrefix base = some (ofNames names) := by
  obtain ⟨hstart, front, hbody, hfront⟩ := components_joinAll hnames hne base
  obtain ⟨skipped, hskipped, hiter⟩ := iterAfter_body front names
  have hall : (base.joinAll names).components.iterAfter base.components.toList =
      some ⟨none, skipped ++ names⟩ := by
    have heq : (base.joinAll names).components = ⟨base.components.start, front ++ names⟩ := by
      rw [← hstart, ← hbody]
    rw [heq, Components.toList, ← hfront]
    cases base.components.start with
    | none => exact hiter
    | some c => simpa [Components.iterAfter, Components.next] using hiter
  unfold stripPrefix
  rw [hall, Option.map_some, asPath_names hnames hne hskipped]

end Join

end UnixPath

end Framework
