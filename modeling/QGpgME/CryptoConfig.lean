import QGpgME.HashTable
import QGpgME.QtString

/-! The options of a gpgconf component, filed by group and found again by name. -/
namespace QGpgME.CryptoConfig
open HashTable

/-- `GpgME::Configuration::Option`, without what is not read here. -/
structure ConfigOption where
  flags : UInt32
  name : QByteArray
deriving DecidableEq

/-- The bit `Group` of the flags: the option is the header of a group. -/
def ConfigOption.isGroup (o : ConfigOption) : Bool := o.flags &&& 1 ≠ 0

structure QGpgMENewCryptoConfigEntry where
  m_option : ConfigOption
deriving DecidableEq

def QGpgMENewCryptoConfigEntry.name (e : QGpgMENewCryptoConfigEntry) : QString :=
  QString.fromUtf8 e.m_option.name

structure QGpgMENewCryptoConfigGroup where
  m_option : ConfigOption
  m_entryNames : List QString
  m_entriesByName : HashTable QString QGpgMENewCryptoConfigEntry

namespace QGpgMENewCryptoConfigGroup

def new (option : ConfigOption) : QGpgMENewCryptoConfigGroup := ⟨option, [], ∅⟩

def name (g : QGpgMENewCryptoConfigGroup) : QString := QString.fromUtf8 g.m_option.name

def entryList (g : QGpgMENewCryptoConfigGroup) : List QString := g.m_entryNames

def entry (g : QGpgMENewCryptoConfigGroup) (name : QString) : Option QGpgMENewCryptoConfigEntry :=
  g.m_entriesByName.lookup name

/-- What `setComponent` does with an option that is no header. -/
def file (g : QGpgMENewCryptoConfigGroup) (o : ConfigOption) : QGpgMENewCryptoConfigGroup :=
  let entry : QGpgMENewCryptoConfigEntry := ⟨o⟩
  { g with
    m_entryNames := g.m_entryNames ++ [entry.name]
    m_entriesByName := g.m_entriesByName.insert entry.name entry }

end QGpgMENewCryptoConfigGroup

/-- With the options for which a warning has been logged. -/
structure QGpgMENewCryptoConfigComponent where
  m_groupsByName : HashTable QString QGpgMENewCryptoConfigGroup
  withoutGroup : List ConfigOption

namespace QGpgMENewCryptoConfigComponent

def addGroup (c : QGpgMENewCryptoConfigComponent) (group : Option QGpgMENewCryptoConfigGroup) :
    QGpgMENewCryptoConfigComponent :=
  match group with
  | some g => { c with m_groupsByName := c.m_groupsByName.insert g.name g }
  | none => c

/-- One round of the loop, with the group that is being filled. -/
def fileOption (s : QGpgMENewCryptoConfigComponent × Option QGpgMENewCryptoConfigGroup)
    (o : ConfigOption) : QGpgMENewCryptoConfigComponent × Option QGpgMENewCryptoConfigGroup :=
  if o.isGroup then (s.1.addGroup s.2, some (.new o))
  else
    match s.2 with
    | some g => (s.1, some (g.file o))
    | none => ({ s.1 with withoutGroup := s.1.withoutGroup ++ [o] }, none)

def setComponent (options : List ConfigOption) : QGpgMENewCryptoConfigComponent :=
  let s := options.foldl fileOption (⟨∅, []⟩, none)
  s.1.addGroup s.2

def groupList (iteration : Iteration QString QGpgMENewCryptoConfigGroup)
    (c : QGpgMENewCryptoConfigComponent) : List QString :=
  (iteration.order c.m_groupsByName).map fun e => e.2.name

def group (c : QGpgMENewCryptoConfigComponent) (name : QString) :
    Option QGpgMENewCryptoConfigGroup :=
  c.m_groupsByName.lookup name

end QGpgMENewCryptoConfigComponent

/-- The components that gpgconf has listed. -/
structure QGpgMENewCryptoConfig where
  m_componentsByName : HashTable QString QGpgMENewCryptoConfigComponent

namespace QGpgMENewCryptoConfig
variable (iteration : Iteration QString QGpgMENewCryptoConfigGroup)

/-- From the names of the components and their options. -/
def reloadConfiguration (components : List (QByteArray × List ConfigOption)) :
    QGpgMENewCryptoConfig :=
  ⟨components.foldl (fun t c => t.insert (QString.fromUtf8 c.1) (.setComponent c.2)) ∅⟩

def component (config : QGpgMENewCryptoConfig) (name : QString) :
    Option QGpgMENewCryptoConfigComponent :=
  config.m_componentsByName.lookup name

/-- `CryptoConfig::entry` with the name of a component and of an entry. -/
def entry (config : QGpgMENewCryptoConfig) (componentName entryName : QString) :
    Option QGpgMENewCryptoConfigEntry :=
  match config.component componentName with
  | none => none
  | some comp => (comp.groupList iteration).findSome? fun groupName =>
      (comp.group groupName).bind fun g => g.entry entryName

/-- `CryptoConfig::entry` with the name of a group in between. -/
def entryOfGroup (config : QGpgMENewCryptoConfig) (componentName groupName entryName : QString) :
    Option QGpgMENewCryptoConfigEntry :=
  (config.component componentName).bind fun comp =>
    (comp.group groupName).bind fun g => g.entry entryName

end QGpgMENewCryptoConfig

def optionName (o : ConfigOption) : QString := QString.fromUtf8 o.name

section sections

/-- The headers, each with what stands between it and the next one. -/
def sections : List ConfigOption → List (ConfigOption × List ConfigOption)
  | [] => []
  | o :: rest =>
    if o.isGroup then (o, rest.takeWhile fun m => !m.isGroup) :: sections rest
    else sections rest

theorem sections_headers (options : List ConfigOption) :
    (sections options).map Prod.fst = options.filter fun o => o.isGroup := by
  induction options with
  | nil => rfl
  | cons o rest ih =>
    cases ho : o.isGroup with
    | true => simp [sections, ho, ih]
    | false => simp [sections, ho, ih]

/-- No option that is no header is lost: it stands in front of the headers or in a section. -/
theorem takeWhile_sections (options : List ConfigOption) :
    (options.takeWhile fun o => !o.isGroup) ++ (sections options).flatMap Prod.snd =
      options.filter fun o => !o.isGroup := by
  induction options with
  | nil => rfl
  | cons o rest ih =>
    cases ho : o.isGroup with
    | true => simpa [sections, ho] using ih
    | false => simpa [sections, ho] using ih

theorem mem_sections {options before after : List ConfigOption} {header : ConfigOption}
    (h : options = before ++ header :: after) (hheader : header.isGroup = true) :
    (header, after.takeWhile fun m => !m.isGroup) ∈ sections options := by
  obtain rfl := h
  induction before with
  | nil => simp [sections, hheader]
  | cons o before ih =>
    cases ho : o.isGroup with
    | true => simp [sections, ho, ih]
    | false => simpa [sections, ho] using ih

theorem mem_takeWhile {mid after : List ConfigOption} {o : ConfigOption}
    (hmid : ∀ m ∈ mid, m.isGroup = false) (ho : o.isGroup = false) :
    o ∈ (mid ++ o :: after).takeWhile fun m => !m.isGroup := by
  rw [List.takeWhile_append_of_pos (by simpa using hmid)]
  simp [ho]

/-- The names of the groups are pairwise distinct, and those of the other options are. -/
structure Distinct (options : List ConfigOption) : Prop where
  groups : ((options.filter fun o => o.isGroup).map optionName).Nodup
  entries : ((options.filter fun o => !o.isGroup).map optionName).Nodup

variable {options : List ConfigOption}

theorem Distinct.headers (h : Distinct options) :
    ((sections options).map fun s => optionName s.1).Nodup := by
  have hgroups := h.groups
  rw [← sections_headers, List.map_map] at hgroups
  exact hgroups

theorem Distinct.members (h : Distinct options) :
    ((options.takeWhile fun o => !o.isGroup).map optionName ++
      (sections options).flatMap fun s => s.2.map optionName).Nodup := by
  have hentries := h.entries
  rw [← takeWhile_sections, List.map_append, List.map_flatMap] at hentries
  exact hentries

theorem Distinct.section_members (h : Distinct options)
    {s : ConfigOption × List ConfigOption} (hs : s ∈ sections options) :
    (s.2.map optionName).Nodup :=
  (List.nodup_flatMap.mp h.members.of_append_right).1 s hs

theorem Distinct.section_unique (h : Distinct options)
    {s t : ConfigOption × List ConfigOption} (hs : s ∈ sections options)
    (ht : t ∈ sections options) {o m : ConfigOption} (ho : o ∈ s.2) (hm : m ∈ t.2)
    (hname : optionName o = optionName m) : s = t := by
  by_contra hne
  have hpairs := (List.nodup_flatMap.mp h.members.of_append_right).2
  have hsymm : Std.Symm (Function.onFun List.Disjoint
      fun s : ConfigOption × List ConfigOption => s.2.map optionName) :=
    ⟨fun _ _ hd => List.disjoint_symm hd⟩
  have hdisjoint := hpairs.forall hs ht hne
  exact hdisjoint (List.mem_map_of_mem ho) (hname ▸ List.mem_map_of_mem hm)

/-- A name stands once at most, in one of the sections. -/
theorem Distinct.member_unique (h : Distinct options)
    {s t : ConfigOption × List ConfigOption} (hs : s ∈ sections options)
    (ht : t ∈ sections options) {o m : ConfigOption} (ho : o ∈ s.2) (hm : m ∈ t.2)
    (hname : optionName o = optionName m) : s = t ∧ o = m := by
  have hst : s = t := h.section_unique hs ht ho hm hname
  obtain rfl := hst
  exact ⟨rfl, List.inj_on_of_nodup_map (h.section_members hs) ho hm hname⟩

/-- A name in front of the first header stands in no section. -/
theorem Distinct.not_in_section (h : Distinct options) {o m : ConfigOption}
    (ho : o ∈ options.takeWhile fun o => !o.isGroup) {s : ConfigOption × List ConfigOption}
    (hs : s ∈ sections options) (hm : m ∈ s.2) : optionName m ≠ optionName o := by
  intro hname
  have hdisjoint := List.disjoint_of_nodup_append h.members
  exact hdisjoint (List.mem_map_of_mem ho)
    (List.mem_flatMap.mpr ⟨s, hs, hname ▸ List.mem_map_of_mem hm⟩)

end sections

section filing
open QGpgMENewCryptoConfigComponent

def fileEntries (members : List ConfigOption) (t : HashTable QString QGpgMENewCryptoConfigEntry) :
    HashTable QString QGpgMENewCryptoConfigEntry :=
  insertAll QGpgMENewCryptoConfigEntry.name (members.map QGpgMENewCryptoConfigEntry.mk) t

def fileGroups (groups : List QGpgMENewCryptoConfigGroup)
    (t : HashTable QString QGpgMENewCryptoConfigGroup) :
    HashTable QString QGpgMENewCryptoConfigGroup :=
  insertAll QGpgMENewCryptoConfigGroup.name groups t

/-- The group that a section becomes. -/
def groupOf (s : ConfigOption × List ConfigOption) : QGpgMENewCryptoConfigGroup :=
  s.2.foldl .file (.new s.1)

theorem foldl_file (members : List ConfigOption) (g : QGpgMENewCryptoConfigGroup) :
    members.foldl .file g =
      ⟨g.m_option, g.m_entryNames ++ members.map optionName,
        fileEntries members g.m_entriesByName⟩ := by
  induction members generalizing g with
  | nil => simp [fileEntries, insertAll]
  | cons o members ih =>
    rw [List.foldl_cons, ih]
    simp [QGpgMENewCryptoConfigGroup.file, fileEntries, insertAll, optionName,
      QGpgMENewCryptoConfigEntry.name]

theorem foldl_fileOption_group (c : QGpgMENewCryptoConfigComponent)
    (g : QGpgMENewCryptoConfigGroup) (options : List ConfigOption) :
    let s := options.foldl fileOption (c, some g)
    s.1.addGroup s.2 =
      ⟨fileGroups (((options.takeWhile fun o => !o.isGroup).foldl .file g) ::
        (sections options).map groupOf) c.m_groupsByName, c.withoutGroup⟩ := by
  induction options generalizing c g with
  | nil => rfl
  | cons o rest ih =>
    cases ho : o.isGroup with
    | true =>
      have hrest := ih (c.addGroup (some g)) (.new o)
      simpa [fileOption, ho, sections, groupOf, addGroup, fileGroups, insertAll] using hrest
    | false =>
      have hrest := ih c (g.file o)
      simpa [fileOption, ho, sections] using hrest

/-- Every section becomes a group, and only what precedes all headers is left out. -/
theorem setComponent_eq (options : List ConfigOption) :
    setComponent options = ⟨fileGroups ((sections options).map groupOf) ∅,
      options.takeWhile fun o => !o.isGroup⟩ := by
  have hnone : ∀ c : QGpgMENewCryptoConfigComponent,
      let s := options.foldl fileOption (c, none)
      s.1.addGroup s.2 = ⟨fileGroups ((sections options).map groupOf) c.m_groupsByName,
        c.withoutGroup ++ options.takeWhile fun o => !o.isGroup⟩ := by
    induction options with
    | nil =>
      intro c
      simp [addGroup, sections, fileGroups, insertAll]
    | cons o rest ih =>
      intro c
      cases ho : o.isGroup with
      | true =>
        have hrest := foldl_fileOption_group c (.new o) rest
        simpa [fileOption, ho, sections, groupOf, addGroup] using hrest
      | false =>
        have hrest := ih { c with withoutGroup := c.withoutGroup ++ [o] }
        simpa [fileOption, ho, sections] using hrest
  exact hnone ⟨∅, []⟩

theorem groupOf_entryList (s : ConfigOption × List ConfigOption) :
    (groupOf s).entryList = s.2.map optionName := by
  rw [groupOf, foldl_file]
  rfl

theorem groupOf_name (s : ConfigOption × List ConfigOption) :
    (groupOf s).name = optionName s.1 := by
  rw [groupOf, foldl_file]
  rfl

theorem groupOf_entry {s : ConfigOption × List ConfigOption} (h : (s.2.map optionName).Nodup)
    {name : QString} {e : QGpgMENewCryptoConfigEntry} :
    (groupOf s).entry name = some e ↔ e.m_option ∈ s.2 ∧ e.name = name := by
  have hnodup : ((s.2.map QGpgMENewCryptoConfigEntry.mk).map
      QGpgMENewCryptoConfigEntry.name).Nodup := by
    rw [List.map_map]
    exact h
  have hmem : e ∈ s.2.map QGpgMENewCryptoConfigEntry.mk ↔ e.m_option ∈ s.2 := by
    constructor
    · intro he
      obtain ⟨o, ho, rfl⟩ := List.mem_map.mp he
      exact ho
    · intro he
      exact List.mem_map.mpr ⟨e.m_option, he, rfl⟩
  rw [groupOf, foldl_file]
  show (fileEntries s.2 ∅).lookup name = some e ↔ _
  rw [fileEntries, lookup_insertAll hnodup, hmem]

variable {options : List ConfigOption}

theorem setComponent_group (h : Distinct options) {name : QString}
    {g : QGpgMENewCryptoConfigGroup} :
    (setComponent options).group name = some g ↔
      ∃ s ∈ sections options, groupOf s = g ∧ optionName s.1 = name := by
  have hnodup : (((sections options).map groupOf).map
      QGpgMENewCryptoConfigGroup.name).Nodup := by
    rw [List.map_map]
    have hnames : QGpgMENewCryptoConfigGroup.name ∘ groupOf = fun s => optionName s.1 :=
      funext groupOf_name
    rw [hnames]
    exact h.headers
  rw [setComponent_eq, group, fileGroups, lookup_insertAll hnodup]
  constructor
  · intro hg
    obtain ⟨hmem, hname⟩ := hg
    obtain ⟨s, hs, rfl⟩ := List.mem_map.mp hmem
    exact ⟨s, hs, rfl, (groupOf_name s).symm.trans hname⟩
  · intro hs
    obtain ⟨s, hs, rfl, hname⟩ := hs
    exact ⟨List.mem_map_of_mem hs, (groupOf_name s).trans hname⟩

end filing

section lookup
open QGpgMENewCryptoConfig QGpgMENewCryptoConfigComponent
variable {options : List ConfigOption} {config : QGpgMENewCryptoConfig} {componentName : QString}

/-- With a group, an entry is found just where an option of this name stands in a section of
that group. -/
theorem entryOfGroup_iff (h : Distinct options)
    (hcomp : config.component componentName = some (setComponent options))
    {groupName name : QString} {e : QGpgMENewCryptoConfigEntry} :
    config.entryOfGroup componentName groupName name = some e ↔
      ∃ s ∈ sections options, optionName s.1 = groupName ∧ e.m_option ∈ s.2 ∧ e.name = name := by
  rw [entryOfGroup, hcomp, Option.bind_some, Option.bind_eq_some_iff]
  constructor
  · intro hg
    obtain ⟨g, hg, he⟩ := hg
    obtain ⟨s, hs, rfl, hname⟩ := (setComponent_group h).mp hg
    exact ⟨s, hs, hname, (groupOf_entry (h.section_members hs)).mp he⟩
  · intro hs
    obtain ⟨s, hs, hname, he⟩ := hs
    exact ⟨groupOf s, (setComponent_group h).mpr ⟨s, hs, rfl, hname⟩,
      (groupOf_entry (h.section_members hs)).mpr he⟩

theorem mem_groupList (h : Distinct options)
    {iteration : Iteration QString QGpgMENewCryptoConfigGroup} {groupName : QString} :
    groupName ∈ (setComponent options).groupList iteration ↔
      ∃ s ∈ sections options, optionName s.1 = groupName := by
  rw [groupList, List.mem_map]
  constructor
  · intro he
    obtain ⟨⟨key, g⟩, he, rfl⟩ := he
    have hgroup : (setComponent options).group key = some g := mem_order.mp he
    obtain ⟨s, hs, rfl, -⟩ := (setComponent_group h).mp hgroup
    exact ⟨s, hs, (groupOf_name s).symm⟩
  · intro hs
    obtain ⟨s, hs, rfl⟩ := hs
    have hgroup : (setComponent options).group (optionName s.1) = some (groupOf s) :=
      (setComponent_group h).mpr ⟨s, hs, rfl, rfl⟩
    exact ⟨⟨optionName s.1, groupOf s⟩, mem_order.mpr hgroup, groupOf_name s⟩

/-- Without a group the order in which the groups are searched does not matter. -/
theorem entry_iff (h : Distinct options)
    (hcomp : config.component componentName = some (setComponent options))
    {iteration : Iteration QString QGpgMENewCryptoConfigGroup} {name : QString}
    {e : QGpgMENewCryptoConfigEntry} :
    config.entry iteration componentName name = some e ↔
      ∃ s ∈ sections options, e.m_option ∈ s.2 ∧ e.name = name := by
  have hsearch : ∀ groupName e, (((setComponent options).group groupName).bind fun g =>
      g.entry name) = some e ↔
        ∃ s ∈ sections options, optionName s.1 = groupName ∧ e.m_option ∈ s.2 ∧ e.name = name := by
    intro groupName e
    have hgroup : config.entryOfGroup componentName groupName name = some e ↔ _ :=
      entryOfGroup_iff h hcomp
    rwa [entryOfGroup, hcomp, Option.bind_some] at hgroup
  rw [entry, hcomp]
  constructor
  · intro hfound
    obtain ⟨groupName, -, hgroup⟩ := List.exists_of_findSome?_eq_some hfound
    obtain ⟨s, hs, -, he⟩ := (hsearch groupName e).mp hgroup
    exact ⟨s, hs, he⟩
  · intro hs
    obtain ⟨s, hs, he, hname⟩ := hs
    apply findSome_unique
    · exact ⟨optionName s.1, (mem_groupList h).mpr ⟨s, hs, rfl⟩,
        (hsearch _ e).mpr ⟨s, hs, rfl, he, hname⟩⟩
    · intro groupName _ d hd
      obtain ⟨t, ht, -, hd, hname'⟩ := (hsearch groupName d).mp hd
      have hsame := (h.member_unique ht hs hd he (hname'.trans hname.symm)).2
      cases d
      cases e
      exact congrArg _ hsame

/-- With the name of another group, nothing is found. -/
theorem entryOfGroup_other (h : Distinct options)
    (hcomp : config.component componentName = some (setComponent options))
    {s : ConfigOption × List ConfigOption} (hs : s ∈ sections options) {o : ConfigOption}
    (ho : o ∈ s.2) {groupName : QString} (hne : groupName ≠ optionName s.1) :
    config.entryOfGroup componentName groupName (optionName o) = none := by
  rw [Option.eq_none_iff_forall_ne_some]
  intro e he
  obtain ⟨t, ht, hgroupName, he, hname⟩ := (entryOfGroup_iff h hcomp).mp he
  have hsame := (h.member_unique ht hs he ho hname).1
  exact hne (by rw [← hgroupName, hsame])

/-- What stands in front of all headers is not found, neither with nor without a group. -/
theorem not_found (h : Distinct options)
    (hcomp : config.component componentName = some (setComponent options))
    (iteration : Iteration QString QGpgMENewCryptoConfigGroup) {o : ConfigOption}
    (ho : o ∈ options.takeWhile fun o => !o.isGroup) :
    config.entry iteration componentName (optionName o) = none ∧
      ∀ groupName, config.entryOfGroup componentName groupName (optionName o) = none := by
  constructor
  · rw [Option.eq_none_iff_forall_ne_some]
    intro e he
    obtain ⟨s, hs, hmem, hname⟩ := (entry_iff h hcomp).mp he
    exact h.not_in_section ho hs hmem hname
  · intro groupName
    rw [Option.eq_none_iff_forall_ne_some]
    intro e he
    obtain ⟨s, hs, -, hmem, hname⟩ := (entryOfGroup_iff h hcomp).mp he
    exact h.not_in_section ho hs hmem hname

/-- Every option behind a header is filed under the nearest one, and found again under its
name, by whatever group the search begins; what stands in front of all headers is not. -/
theorem setComponent_files (h : Distinct options)
    (hcomp : config.component componentName = some (setComponent options))
    (iteration : Iteration QString QGpgMENewCryptoConfigGroup) :
    (∀ before header mid o after, options = before ++ header :: (mid ++ o :: after) →
      header.isGroup = true → (∀ m ∈ mid, m.isGroup = false) → o.isGroup = false →
      (∃ g, (setComponent options).group (optionName header) = some g ∧ g.m_option = header ∧
        g.entry (optionName o) = some ⟨o⟩) ∧
      (∀ groupName g, (setComponent options).group groupName = some g →
        groupName ≠ optionName header → g.entry (optionName o) = none) ∧
      config.entry iteration componentName (optionName o) = some ⟨o⟩ ∧
      (∀ groupName, config.entryOfGroup componentName groupName (optionName o) =
        if groupName = optionName header then some ⟨o⟩ else none)) ∧
    (setComponent options).withoutGroup = options.takeWhile (fun o => !o.isGroup) ∧
    (∀ o ∈ options.takeWhile fun o => !o.isGroup,
      config.entry iteration componentName (optionName o) = none ∧
      ∀ groupName, config.entryOfGroup componentName groupName (optionName o) = none) ∧
    (∀ before header after, options = before ++ header :: after → header.isGroup = true →
      ∃ g, (setComponent options).group (optionName header) = some g ∧
        g.entryList = (after.takeWhile fun o => !o.isGroup).map optionName) := by
  refine ⟨?_, by rw [setComponent_eq], ?_, ?_⟩
  · intro before header mid o after hsplit hheader hmid ho
    have hs := mem_sections hsplit hheader
    have hmem : o ∈ (mid ++ o :: after).takeWhile fun m => !m.isGroup := mem_takeWhile hmid ho
    have hgroup := (setComponent_group h).mpr ⟨_, hs, rfl, rfl⟩
    have hentry : (groupOf (header, (mid ++ o :: after).takeWhile fun m => !m.isGroup)).entry
        (optionName o) = some ⟨o⟩ := (groupOf_entry (h.section_members hs)).mpr ⟨hmem, rfl⟩
    have hother : ∀ groupName, groupName ≠ optionName header →
        config.entryOfGroup componentName groupName (optionName o) = none :=
      fun groupName hne => entryOfGroup_other h hcomp hs hmem hne
    refine ⟨⟨_, hgroup, ?_, hentry⟩, ?_, ?_, ?_⟩
    · rw [groupOf, foldl_file]
      rfl
    · intro groupName g hg hne
      have hnone := hother groupName hne
      rwa [entryOfGroup, hcomp, Option.bind_some, hg, Option.bind_some] at hnone
    · exact (entry_iff h hcomp).mpr ⟨_, hs, hmem, rfl⟩
    · intro groupName
      by_cases hname : groupName = optionName header
      · rw [if_pos hname]
        exact (entryOfGroup_iff h hcomp).mpr ⟨_, hs, hname.symm, hmem, rfl⟩
      · rw [if_neg hname]
        exact hother groupName hname
  · intro o ho
    exact not_found h hcomp iteration ho
  · intro before header after hsplit hheader
    have hs := mem_sections hsplit hheader
    exact ⟨_, (setComponent_group h).mpr ⟨_, hs, rfl, rfl⟩, groupOf_entryList _⟩

/-- An option without group, an empty group, and a last group of one option. -/
theorem setComponent_files_last :
    let config := reloadConfiguration [([103], [⟨0, [97]⟩, ⟨1, [65]⟩, ⟨1, [66]⟩, ⟨0, [98]⟩])]
    config.entry ⟨AList.entries, fun _ => .refl _⟩ ['g'] ['b'] = some ⟨⟨0, [98]⟩⟩ := by
  intro config
  have h : Distinct [⟨0, [97]⟩, ⟨1, [65]⟩, ⟨1, [66]⟩, ⟨0, [98]⟩] :=
    ⟨by decide +kernel, by decide +kernel⟩
  have hcomp : config.component ['g'] = some (setComponent _) := rfl
  have hfiles := (setComponent_files h hcomp ⟨AList.entries, fun _ => .refl _⟩).1
  exact (hfiles [⟨0, [97]⟩, ⟨1, [65]⟩] ⟨1, [66]⟩ [] ⟨0, [98]⟩ [] rfl rfl (by simp) rfl).2.2.1

end lookup

end QGpgME.CryptoConfig
