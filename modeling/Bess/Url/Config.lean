import Bess.Lib.ByteMem
import Bess.Utils.TrieDump
import Mathlib.Data.List.AList

/-!
# The blacklist of UrlFilter

The commands of `url_filter.cc`. The blacklist has a trie of paths for each host. `GetRuntimeConfig`
lists the paths of all tries, sorted by host, and `SetRuntimeConfig` builds a blacklist from such a
list. The pairs of host and path that match are then those that matched before, where the tries are
used within their bounds.
-/

namespace Bess.UrlFilter

open Bess.ByteMem Bess.Tries

structure Url where
  host : List Byte
  path : List Byte
  deriving DecidableEq

abbrev Blacklist := AList fun _ : List Byte => BoundedTrie Unit

/-- `blacklist_[url.host()].Insert(url.path(), {})` -/
def Blacklist.add (b : Blacklist) (url : Url) : Option Blacklist := do
  let trie ← ((b.lookup url.host).getD .new).insert url.path () false
  some (b.insert url.host trie)

/-- `Init`, which `CommandAdd` calls -/
def init (b : Blacklist) : List Url → Option Blacklist
  | [] => some b
  | url :: urls => do
    let b ← b.add url
    init b urls

inductive Command where
  | add (blacklist : List Url)
  | clear

def Command.urls : Command → List Url
  | .add urls => urls
  | .clear => []

def Blacklist.run (b : Blacklist) : List Command → Option Blacklist
  | [] => some b
  | .add urls :: cmds => do
    let b ← init b urls
    Blacklist.run b cmds
  | .clear :: cmds => Blacklist.run ∅ cmds

/-- The argument is the map in the order in which it is iterated over. -/
def getRuntimeConfig (blacklist : List ((_ : List Byte) × BoundedTrie Unit)) : List Url :=
  (blacklist.flatMap fun it => it.2.dump.map fun entry => ⟨it.1, entry.1⟩).mergeSort
    fun a b => !decide (b.host < a.host)

def setRuntimeConfig (arg : List Url) : Option Blacklist := init ∅ arg

/-- `rule_iterator != blacklist_.end() && rule_iterator->second.Match(path_str)` -/
def Blacklist.matches (b : Blacklist) (host path : List Byte) : Option Bool :=
  match b.lookup host with
  | some trie => trie.trie.match path
  | none => some false

/-! ## What a blacklist holds -/

variable {b b' : Blacklist} {url : Url} {urls urls' : List Url} {host path : List Byte}

def insertionsOf (host : List Byte) (urls : List Url) : List (Insertion Unit) :=
  (urls.filter fun url => url.host = host).map fun url => ⟨url.path, (), false⟩

theorem mem_insertionsOf {op : Insertion Unit} : op ∈ insertionsOf host urls ↔
    ∃ url ∈ urls, url.host = host ∧ ⟨url.path, (), false⟩ = op := by
  simp [insertionsOf, and_assoc]

theorem key_insertionsOf : (∃ op ∈ insertionsOf host urls, op.key = path) ↔
    ⟨host, path⟩ ∈ urls := by
  simp only [mem_insertionsOf]
  constructor
  · rintro ⟨op, ⟨⟨h, p⟩, hurl, rfl, rfl⟩, rfl⟩
    exact hurl
  · intro hurl
    exact ⟨_, ⟨_, hurl, rfl, rfl⟩, rfl⟩

/-- A host is in the map if and only if it was added with a path, and its trie has its paths. -/
def Holds (b : Blacklist) (urls : List Url) : Prop :=
  ∀ host, match b.lookup host with
    | some trie => Rep trie.trie (insertionsOf host urls) ∧ insertionsOf host urls ≠ []
    | none => insertionsOf host urls = []

theorem holds_empty : Holds ∅ [] := fun _ => rfl

theorem Holds.rep (h : Holds b urls) (host : List Byte) :
    Rep ((b.lookup host).getD .new).trie (insertionsOf host urls) := by
  have hhost := h host
  cases hl : b.lookup host with
  | none =>
    rw [hl] at hhost
    rw [hhost]
    exact rep_new
  | some trie =>
    rw [hl] at hhost
    exact hhost.1

theorem insertionsOf_append (host : List Byte) (urls : List Url) (url : Url) :
    insertionsOf host (urls ++ [url]) =
      insertionsOf host urls ++ if url.host = host then [⟨url.path, (), false⟩] else [] := by
  by_cases hh : url.host = host <;> simp [insertionsOf, hh]

theorem Holds.add (h : Holds b urls) (hb : b.add url = some b') : Holds b' (urls ++ [url]) := by
  obtain ⟨trie, htrie, hb⟩ := Option.bind_eq_some_iff.mp hb
  cases hb
  intro host
  rw [insertionsOf_append]
  by_cases hh : host = url.host
  · subst hh
    rw [AList.lookup_insert, if_pos rfl]
    refine ⟨?_, by simp⟩
    exact (h.rep url.host).insert (BoundedTrie.insert_trie htrie)
  · rw [AList.lookup_insert_ne hh, if_neg (Ne.symm hh), List.append_nil]
    exact h host

def Url.Ascii (url : Url) : Prop := ∀ c ∈ url.path, c.toNat < 128

theorem add_isSome_iff : (b.add url).isSome = true ↔ url.Ascii := by
  unfold Url.Ascii
  rw [← BoundedTrie.insert_isSome_iff ((b.lookup url.host).getD .new) () false]
  unfold Blacklist.add
  cases ((b.lookup url.host).getD .new).insert url.path () false <;> simp

theorem init_isSome_iff : (init b urls).isSome = true ↔ ∀ url ∈ urls, url.Ascii := by
  induction urls generalizing b with
  | nil => simp [init]
  | cons url urls ih =>
    rw [List.forall_mem_cons, ← add_isSome_iff (b := b)]
    cases hb : b.add url with
    | none => simp [init, hb]
    | some b₁ => simp [init, hb, ih]

theorem Holds.init (h : Holds b urls) (hb : init b urls' = some b') : Holds b' (urls ++ urls') := by
  induction urls' generalizing b urls with
  | nil =>
    cases hb
    rwa [List.append_nil]
  | cons url urls' ih =>
    obtain ⟨b₁, hb₁, hb⟩ := Option.bind_eq_some_iff.mp hb
    have hrest := ih (h.add hb₁) hb
    rwa [List.append_assoc] at hrest

theorem run_isSome_iff {cmds : List Command} :
    (b.run cmds).isSome = true ↔ ∀ cmd ∈ cmds, ∀ url ∈ cmd.urls, url.Ascii := by
  induction cmds generalizing b with
  | nil => simp [Blacklist.run]
  | cons cmd cmds ih =>
    rw [List.forall_mem_cons]
    cases cmd with
    | clear => simp [Blacklist.run, Command.urls, ih]
    | add urls =>
      rw [Command.urls, ← init_isSome_iff (b := b)]
      cases hb : UrlFilter.init b urls with
      | none => simp [Blacklist.run, hb]
      | some b₁ => simp [Blacklist.run, hb, ih]

/-- What was added behind the last clear, to a blacklist of `urls`. -/
def listed (urls : List Url) : List Command → List Url
  | [] => urls
  | .add urls' :: cmds => listed (urls ++ urls') cmds
  | .clear :: cmds => listed [] cmds

theorem mem_listed {cmds : List Command} (h : url ∈ listed urls cmds) :
    url ∈ urls ∨ ∃ cmd ∈ cmds, url ∈ cmd.urls := by
  induction cmds generalizing urls with
  | nil => exact .inl h
  | cons cmd cmds ih =>
    cases cmd with
    | clear =>
      rcases ih h with hnil | ⟨cmd, hcmd, hurl⟩
      · cases hnil
      · exact .inr ⟨cmd, List.mem_cons_of_mem _ hcmd, hurl⟩
    | add urls' =>
      rcases ih h with hmem | ⟨cmd, hcmd, hurl⟩
      · rcases List.mem_append.mp hmem with hmem | hmem
        · exact .inl hmem
        · exact .inr ⟨.add urls', List.mem_cons_self .., hmem⟩
      · exact .inr ⟨cmd, List.mem_cons_of_mem _ hcmd, hurl⟩

theorem Holds.run {cmds : List Command} (h : Holds b urls) (hb : b.run cmds = some b') :
    Holds b' (listed urls cmds) := by
  induction cmds generalizing b urls with
  | nil =>
    cases hb
    exact h
  | cons cmd cmds ih =>
    cases cmd with
    | clear => exact ih holds_empty hb
    | add urls' =>
      obtain ⟨b₁, hb₁, hb⟩ := Option.bind_eq_some_iff.mp hb
      exact ih (h.init hb₁) hb

/-! ## The round trip -/

theorem Holds.mem_getRuntimeConfig (h : Holds b urls)
    {order : List ((_ : List Byte) × BoundedTrie Unit)} (hp : order.Perm b.entries) :
    url ∈ getRuntimeConfig order ↔ url ∈ urls := by
  have hdump : ∀ {host trie}, b.lookup host = some trie →
      ∀ path, path ∈ trie.dump.map Prod.fst ↔ ⟨host, path⟩ ∈ urls := by
    intro host trie hl path
    have hhost := h host
    rw [hl] at hhost
    rw [BoundedTrie.mem_dump hhost.1, key_insertionsOf]
  rw [getRuntimeConfig, List.mem_mergeSort, List.mem_flatMap]
  constructor
  · rintro ⟨⟨host, trie⟩, hmem, hurl⟩
    have hl : b.lookup host = some trie := AList.mem_lookup_iff.mpr (hp.mem_iff.mp hmem)
    obtain ⟨entry, hentry, rfl⟩ := List.mem_map.mp hurl
    exact (hdump hl entry.1).mp (List.mem_map_of_mem hentry)
  · intro hurl
    cases hl : b.lookup url.host with
    | none =>
      have hhost := h url.host
      rw [hl] at hhost
      obtain ⟨op, hop, -⟩ := key_insertionsOf.mpr hurl
      rw [hhost] at hop
      cases hop
    | some trie =>
      refine ⟨⟨url.host, trie⟩, hp.mem_iff.mpr (AList.mem_lookup_iff.mp hl), ?_⟩
      obtain ⟨entry, hentry, he⟩ := List.mem_map.mp ((hdump hl url.path).mpr hurl)
      exact List.mem_map.mpr ⟨entry, hentry, by rw [he]⟩

/-- No byte from 0x80 on is behind a part of the path that begins a path of the host. -/
def Clean (urls : List Url) (host path : List Byte) : Prop :=
  ∀ url ∈ urls, url.host = host → ∀ p c, p <+: url.path → p ++ [c] <+: path → c.toNat < 128

theorem asciiOnPath_iff (hne : insertionsOf host urls ≠ []) :
    AsciiOnPath (insertionsOf host urls) [] path ↔ Clean urls host path := by
  obtain ⟨op, hop⟩ := List.exists_mem_of_ne_nil _ hne
  obtain ⟨url₀, hurl₀, hhost₀, -⟩ := mem_insertionsOf.mp hop
  constructor
  · intro h url hurl hhost p c hp hc
    exact h p c hc (.inr ⟨_, mem_insertionsOf.mpr ⟨url, hurl, hhost, rfl⟩, hp⟩)
  · intro h p c hc hon
    rcases hon with rfl | ⟨op', hop', hp⟩
    · exact h url₀ hurl₀ hhost₀ [] c List.nil_prefix hc
    · obtain ⟨url, hurl, hhost, rfl⟩ := mem_insertionsOf.mp hop'
      exact h url hurl hhost p c hp hc

theorem Holds.matches_iff (h : Holds b urls) (a : Bool) : b.matches host path = some a ↔
    Clean urls host path ∧ (a = true ↔ ⟨host, path⟩ ∈ urls) := by
  have hhost := h host
  unfold Blacklist.matches
  cases hl : b.lookup host with
  | some trie =>
    rw [hl] at hhost
    have hplain : ∀ op ∈ insertionsOf host urls, op.isPrefix = false := by
      intro op hop
      obtain ⟨url, -, -, rfl⟩ := mem_insertionsOf.mp hop
      rfl
    rw [← asciiOnPath_iff hhost.2, ← key_insertionsOf]
    exact match_plain hhost.1 hplain a
  | none =>
    rw [hl] at hhost
    have hno : ∀ url ∈ urls, url.host ≠ host := by
      intro url hurl hh
      have hop := mem_insertionsOf.mpr ⟨url, hurl, hh, rfl⟩
      rw [hhost] at hop
      cases hop
    have hclean : Clean urls host path := fun url hurl hh => absurd hh (hno url hurl)
    rw [and_iff_right hclean, iff_false_right fun hurl => hno _ hurl rfl]
    cases a <;> simp

/-- For every sequence of commands, every host and every path: the tries are used within their bounds,
and the pair matches after `SetRuntimeConfig` of what `GetRuntimeConfig` returned if and only if it
did before, in whatever order the map is iterated over; this is so if and only if no path that was
added has a byte from 0x80 on, nor has the path that is looked for one behind a part of it that begins
a path of the host. -/
theorem round_trip_iff (cmds : List Command) (host path : List Byte) :
    (∃ b, Blacklist.run ∅ cmds = some b ∧ ∀ order, order.Perm b.entries →
      ∃ b' a, setRuntimeConfig (getRuntimeConfig order) = some b' ∧
        b.matches host path = some a ∧ b'.matches host path = some a) ↔
    (∀ cmd ∈ cmds, ∀ url ∈ cmd.urls, url.Ascii) ∧ Clean (listed [] cmds) host path := by
  rw [← run_isSome_iff (b := ∅)]
  cases hb : Blacklist.run ∅ cmds with
  | none => simp
  | some b =>
    have hascii := run_isSome_iff.mp (Option.isSome_iff_exists.mpr ⟨b, hb⟩)
    have h : Holds b (listed [] cmds) := holds_empty.run hb
    rw [and_iff_right Option.isSome_some]
    constructor
    · rintro ⟨_, hb₁, hall⟩
      cases hb₁
      obtain ⟨b', a, -, ha, -⟩ := hall b.entries (List.Perm.refl _)
      exact ((h.matches_iff a).mp ha).1
    · intro hclean
      refine ⟨b, rfl, fun order hp => ?_⟩
      have hmem : ∀ url, url ∈ getRuntimeConfig order ↔ url ∈ listed [] cmds := fun url =>
        h.mem_getRuntimeConfig hp
      have hset : (setRuntimeConfig (getRuntimeConfig order)).isSome = true := by
        refine init_isSome_iff.mpr fun url hurl => ?_
        rcases mem_listed ((hmem url).mp hurl) with hnil | ⟨cmd, hcmd, hurl⟩
        · cases hnil
        · exact hascii cmd hcmd url hurl
      obtain ⟨b', hb'⟩ := Option.isSome_iff_exists.mp hset
      have h' : Holds b' (getRuntimeConfig order) := holds_empty.init hb'
      refine ⟨b', decide (⟨host, path⟩ ∈ listed [] cmds), hb', ?_, ?_⟩
      · exact (h.matches_iff _).mpr ⟨hclean, decide_eq_true_iff⟩
      · refine (h'.matches_iff _).mpr ⟨fun url hurl => hclean url ((hmem url).mp hurl), ?_⟩
        rw [decide_eq_true_iff, hmem]

def ofString (s : String) : List Byte := s.toList.map fun c => BitVec.ofNat 8 c.toNat

/-- A path with a letter outside ASCII cannot be added, and no pair with one can be looked for under a
host of the list. -/
theorem letter_out_of_range :
    (Blacklist.run ∅ [.add [⟨ofString "a", [0xC3, 0xA9]⟩]]).isNone ∧
      (Blacklist.run ∅ [.add [⟨ofString "a", ofString "/"⟩]]).map
        (fun b => b.matches (ofString "a") [0xC3, 0xA9]) = some none := by
  decide +kernel

end Bess.UrlFilter
