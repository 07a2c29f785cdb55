import Miyabi.Cmdline

namespace Miyabi.Cmdline

open Miyabi.Base Miyabi.Fs

theorem charAt_append (s t : CString) (i : ℕ) (hi : i < t.length) :
    charAt (s ++ t) (s.length + i) = .ok t[i].val := by
  rw [charAt, List.getElem?_append_right (Nat.le_add_right _ _), Nat.add_sub_cancel_left,
    List.getElem?_eq_getElem hi]

theorem charAt_length (s : CString) : charAt s s.length = .ok 0 := by
  rw [charAt, List.getElem?_eq_none le_rfl]
  exact if_pos rfl

-- The comparison is with a prefix, and ends at the terminator at the latest.
theorem matchFrom_eq (done p word : CString) :
    matchFrom (done ++ p) done.length word = .ok (decide (word <+: p)) := by
  induction word generalizing done p with
  | nil => rw [matchFrom, decide_eq_true List.nil_prefix]
  | cons c word ih =>
    rw [matchFrom]
    cases p with
    | nil =>
      have hnot : ¬c :: word <+: [] := fun h => by cases List.prefix_nil.mp h
      rw [List.append_nil, charAt_length]
      simp only
      rw [if_pos c.ne_zero.symm, decide_eq_false hnot]
    | cons d p =>
      have hread := charAt_append done (d :: p) 0 (Nat.zero_lt_succ _)
      rw [Nat.add_zero] at hread
      rw [hread]
      simp only [List.getElem_cons_zero]
      by_cases hd : d = c
      · subst hd
        have hrest := ih (done ++ [d]) p
        rw [List.append_assoc, List.singleton_append, List.length_append, List.length_singleton] at hrest
        rw [if_neg (fun h => h rfl), hrest]
        simp only [List.cons_prefix_cons, true_and]
      · have hval : d.val ≠ c.val := by
          intro h
          cases d
          cases c
          exact hd (Char8.mk.injEq _ _ _ _ ▸ h)
        rw [if_pos hval, decide_eq_false]
        rw [List.cons_prefix_cons]
        exact fun h => hd h.1.symm

theorem matchFrom_zero (p word : CString) : matchFrom p 0 word = .ok (decide (word <+: p)) :=
  matchFrom_eq [] p word

-- What ends an argument: a space or the end of the command line.
def Ends (post : CString) : Prop := ∀ c ∈ post.head?, c = space

theorem flagAt_eq {flag : CString} (hne : flag ≠ []) (p : CString) :
    ∃ b, flagAt p flag = .ok b ∧ (b = true ↔ ∃ post, p = flag ++ post ∧ Ends post) := by
  rw [flagAt]
  by_cases hhead : p.head? = flag.head?
  · rw [if_neg (not_not.mpr hhead), matchFrom_zero]
    by_cases hprefix : flag <+: p
    · obtain ⟨post, rfl⟩ := hprefix
      rw [decide_eq_true (List.prefix_append _ _)]
      simp only [List.append_cancel_left_eq, exists_eq_left']
      cases post with
      | nil =>
        rw [List.append_nil, charAt_length]
        refine ⟨_, rfl, ?_⟩
        simp [Ends]
      | cons c post =>
        have hread := charAt_append flag (c :: post) 0 (Nat.zero_lt_succ _)
        rw [Nat.add_zero] at hread
        rw [hread]
        refine ⟨_, rfl, ?_⟩
        simp only [List.getElem_cons_zero, Ends, List.head?_cons, Option.mem_some_iff, forall_eq']
        rw [decide_eq_true_iff]
        constructor
        · rintro (hzero | hc)
          · exact absurd hzero c.ne_zero
          · cases c
            simpa [space] using hc
        · exact fun hc => Or.inr (congrArg Char8.val hc)
    · rw [decide_eq_false hprefix]
      refine ⟨false, rfl, ?_⟩
      simp only [Bool.false_eq_true, false_iff]
      rintro ⟨post, rfl, -⟩
      exact hprefix (List.prefix_append _ _)
  · rw [if_pos hhead]
    refine ⟨false, rfl, ?_⟩
    simp only [Bool.false_eq_true, false_iff]
    rintro ⟨post, rfl, -⟩
    rw [List.head?_append_of_ne_nil _ hne] at hhead
    exact hhead rfl

theorem checkFrom_eq {flag : CString} (hne : flag ≠ []) (cmdline : CString) :
    ∃ b, checkFrom flag cmdline = .ok b ∧
      (b = true ↔ ∃ pre post, cmdline = pre ++ (flag ++ post) ∧ Ends post) := by
  induction cmdline with
  | nil =>
    refine ⟨false, rfl, ?_⟩
    simp only [Bool.false_eq_true, false_iff]
    rintro ⟨pre, post, h, -⟩
    exact hne (List.append_eq_nil_iff.mp (List.append_eq_nil_iff.mp h.symm).2).1
  | cons c rest ih =>
    obtain ⟨here, hhere, hhere_iff⟩ := flagAt_eq hne (c :: rest)
    rw [checkFrom, hhere]
    cases here with
    | true =>
      obtain ⟨post, hpost, hends⟩ := hhere_iff.mp rfl
      exact ⟨true, rfl, fun _ => ⟨[], post, hpost, hends⟩, fun _ => rfl⟩
    | false =>
      obtain ⟨b, hb, hb_iff⟩ := ih
      refine ⟨b, hb, hb_iff.trans ?_⟩
      constructor
      · rintro ⟨pre, post, rfl, hends⟩
        exact ⟨c :: pre, post, rfl, hends⟩
      · rintro ⟨pre, post, h, hends⟩
        cases pre with
        | nil =>
          have hfalse := hhere_iff.mpr ⟨post, h, hends⟩
          cases hfalse
        | cons d pre => exact ⟨pre, post, (List.cons.inj h).2, hends⟩

-- The flag is found where an argument ends with it.
theorem checkFlag_suffix {flag : CString} (hne : flag ≠ []) (hspace : space ∉ flag)
    (cmdline : CString) :
    ∃ b, checkFlag (some cmdline) (some flag) = .ok b ∧
      (b = true ↔ ∃ arg ∈ words space cmdline, flag <:+ arg) := by
  obtain ⟨b, hb, hb_iff⟩ := checkFrom_eq hne cmdline
  exact ⟨b, hb, hb_iff.trans (suffix_word_iff hne hspace).symm⟩

-- It is found exactly among the arguments unless a longer argument ends with it.
theorem check_flag_iff (cmdline flag : CString) (hne : flag ≠ []) (hspace : space ∉ flag) :
    (∃ b, checkFlag (some cmdline) (some flag) = .ok b ∧
        (b = true ↔ flag ∈ words space cmdline)) ↔
      (flag ∈ words space cmdline ∨ ∀ arg ∈ words space cmdline, ¬flag <:+ arg) := by
  obtain ⟨b, hb, hb_iff⟩ := checkFlag_suffix hne hspace cmdline
  constructor
  · rintro ⟨b', hb', hb'_iff⟩
    cases hb.symm.trans hb'
    by_cases hmem : flag ∈ words space cmdline
    · exact Or.inl hmem
    · refine Or.inr fun arg harg hsuffix => hmem ?_
      exact hb'_iff.mp (hb_iff.mpr ⟨arg, harg, hsuffix⟩)
  · intro h
    refine ⟨b, hb, hb_iff.trans ?_⟩
    rcases h with hmem | hnone
    · exact ⟨fun _ => hmem, fun _ => ⟨flag, hmem, List.suffix_refl flag⟩⟩
    · constructor
      · rintro ⟨arg, harg, hsuffix⟩
        exact absurd hsuffix (hnone arg harg)
      · intro hmem
        exact absurd (List.suffix_refl flag) (hnone flag hmem)

-- "--debug"
def debugFlag : CString := chars [0x2D, 0x2D, 0x64, 0x65, 0x62, 0x75, 0x67]

def letter : Char8 := ⟨0x78, by decide⟩

theorem check_flag_debug :
    ∃ b, checkFlag (some (letter :: space :: debugFlag)) (some debugFlag) = .ok b ∧
      (b = true ↔ debugFlag ∈ words space (letter :: space :: debugFlag)) := by
  have hwords : words space ([letter] ++ space :: debugFlag) = [[letter], debugFlag] := by
    rw [words_append_sep, words_word (by decide) (by decide), words_word (by decide) (by decide)]
    rfl
  refine (check_flag_iff (letter :: space :: debugFlag) debugFlag (by decide) (by decide)).mpr ?_
  refine Or.inl ?_
  rw [← List.singleton_append, hwords]
  exact List.mem_cons_of_mem _ List.mem_cons_self

-- The argument "x--debug".
theorem check_flag_glued :
    ¬∃ b, checkFlag (some (letter :: debugFlag)) (some debugFlag) = .ok b ∧
      (b = true ↔ debugFlag ∈ words space (letter :: debugFlag)) := by
  have hwords : words space (letter :: debugFlag) = [letter :: debugFlag] :=
    words_word (by decide) (by decide)
  have hfound : checkFlag (some (letter :: debugFlag)) (some debugFlag) = .ok true := rfl
  rintro ⟨b, hb, hiff⟩
  cases hfound.symm.trans hb
  have hmem := hiff.mp rfl
  rw [hwords, List.mem_singleton] at hmem
  exact absurd hmem (by decide)

section Modules

-- The path that a module argument names.
def moduleArgument (arg : CString) : Option CString :=
  let path := arg.drop modPrefix.length
  if modPrefix <+: arg ∧ 1 ≤ path.length ∧ path.length ≤ 127 then some path else none

-- The paths named by the arguments of a command line.
def moduleArguments (cmdline : CString) : List CString :=
  (words space cmdline).filterMap moduleArgument

-- A row that holds a path and its terminator.
structure Holds (row : ℕ → BitVec 8) (path : CString) : Prop where
  chars : ∀ i (h : i < path.length), row i = path[i].val
  ends : row path.length = 0

-- The first rows hold these paths.
structure Tabled (m : BootModules) (list : List CString) : Prop where
  count : m.count = list.length
  rows : ∀ i (h : i < list.length), Holds (m.paths i) list[i]

theorem setChar_ok {m : BootModules} {row col : ℕ} (hrow : row < MAX_BOOT_MODULES)
    (hcol : col < MAX_BOOT_MODULE_PATH) (v : BitVec 8) :
    ∃ m', m.setChar row col v = .ok m' ∧ m'.count = m.count ∧ m'.paths row col = v ∧
      ∀ i j, (i ≠ row ∨ j ≠ col) → m'.paths i j = m.paths i j := by
  refine ⟨_, if_pos ⟨hrow, hcol⟩, rfl, ?_, fun i j h => ?_⟩
  · simp only [Function.update_self]
  · by_cases hi : i = row
    · subst hi
      have hj : j ≠ col := h.resolve_left fun h => h rfl
      simp only [Function.update_self, Function.update_of_ne hj]
    · simp only [Function.update_of_ne hi]

-- The copy of a path that fits into its row.
theorem copyFrom_ok (path : CString) : ∀ {m : BootModules} {i : ℕ}, m.count < MAX_BOOT_MODULES →
    i + path.length ≤ MAX_BOOT_MODULE_PATH →
    ∃ m', m.copyFrom i path = .ok m' ∧ m'.count = m.count ∧
      (∀ j (h : j < path.length), m'.paths m.count (i + j) = path[j].val) ∧
      ∀ k j, (k ≠ m.count ∨ j < i) → m'.paths k j = m.paths k j := by
  induction path with
  | nil =>
    intro m i hcount hfits
    exact ⟨m, rfl, rfl, fun j h => absurd h (Nat.not_lt_zero j), fun _ _ _ => rfl⟩
  | cons c path ih =>
    intro m i hcount hfits
    rw [List.length_cons] at hfits
    obtain ⟨m1, hset, hcount1, hself, hother⟩ := setChar_ok (m := m) hcount (by omega : i < _) c.val
    obtain ⟨m', hcopy, hcount', hpath, hkeep⟩ := ih (m := m1) (i := i + 1) (by omega) (by omega)
    rw [hcount1] at hcount' hpath hkeep
    refine ⟨m', ?_, hcount', ?_, ?_⟩
    · rw [BootModules.copyFrom, hset]
      exact hcopy
    · intro j hj
      cases j with
      | zero => exact (hkeep _ _ (Or.inr (Nat.lt_succ_self i))).trans hself
      | succ j =>
        have hnext := hpath j (by simpa using hj)
        rw [List.getElem_cons_succ, ← hnext]
        congr 1
        omega
    · intro k j h
      have hout : k ≠ m.count ∨ j < i + 1 := h.imp id (by omega)
      have hin : k ≠ m.count ∨ j ≠ i := h.imp id (by omega)
      rw [hkeep k j hout, hother k j hin]

theorem addPath_ok {m : BootModules} {list : List CString} (htable : Tabled m list)
    (hroom : list.length < MAX_BOOT_MODULES) {path : CString}
    (hfits : path.length < MAX_BOOT_MODULE_PATH) :
    ∃ m', m.addPath path = .ok m' ∧ Tabled m' (list ++ [path]) := by
  have hcount : m.count < MAX_BOOT_MODULES := htable.count ▸ hroom
  obtain ⟨m1, hcopy, hcount1, hpath, hkeep⟩ :=
    copyFrom_ok path (m := m) (i := 0) hcount (by omega)
  obtain ⟨m2, hset, hcount2, hself, hother⟩ :=
    setChar_ok (m := m1) (by omega : m1.count < _) hfits 0
  refine ⟨{ m2 with count := m2.count + 1 }, ?_, ?_, ?_⟩
  · rw [BootModules.addPath, if_pos hfits, hcopy]
    simp only [hset]
  · rw [hcount2, hcount1, htable.count, List.length_append, List.length_singleton]
  · intro i hi
    rw [List.length_append, List.length_singleton] at hi
    by_cases hlast : i = list.length
    · subst hlast
      have hrow : m1.count = list.length := hcount1.trans htable.count
      rw [List.getElem_concat_length rfl]
      constructor
      · intro j hj
        have hchar := hpath j hj
        rw [Nat.zero_add, htable.count] at hchar
        rw [hother _ _ (Or.inr (by omega)), hchar]
      · rw [← hrow]
        exact hself
    · have hold := htable.rows i (by omega)
      have hne : i ≠ m.count := by
        rw [htable.count]
        exact hlast
      have hrow : m2.paths i = m.paths i := by
        funext j
        rw [hother i j (Or.inl (hcount1 ▸ hne)), hkeep i j (Or.inl hne)]
      rw [List.getElem_append_left (by omega), hrow]
      exact hold

theorem isModuleArgument_eq (word stop : CString) :
    isModuleArgument (word ++ stop) word.length =
      .ok (decide (modPrefix <+: word ∧ 1 ≤ (word.drop modPrefix.length).length)) := by
  rw [isModuleArgument, List.length_drop]
  by_cases hlong : word.length ≤ modPrefix.length
  · rw [if_pos hlong, decide_eq_false]
    rintro ⟨-, hpath⟩
    omega
  · have hiff : modPrefix <+: word ++ stop ↔ modPrefix <+: word :=
      ⟨fun h => List.prefix_of_prefix_length_le h (List.prefix_append _ _) (by omega),
        fun h => h.trans (List.prefix_append _ _)⟩
    have hpath : 1 ≤ word.length - modPrefix.length := by omega
    rw [if_neg hlong, matchFrom_zero]
    simp only [hiff, hpath, and_true]

-- One argument.
theorem takeArgument_ok {m : BootModules} {list : List CString}
    (htable : Tabled m (list.take MAX_BOOT_MODULES)) (word stop : CString) :
    ∃ m', takeArgument (word ++ stop) word.length m = .ok m' ∧
      Tabled m' ((list ++ (moduleArgument word).toList).take MAX_BOOT_MODULES) := by
  have hcount := htable.count
  rw [List.length_take] at hcount
  have hpath : ((word ++ stop).drop 6).take (word.length - 6) = word.drop modPrefix.length := by
    have hsix : modPrefix.length = 6 := rfl
    rw [← List.drop_take, List.take_left, hsix]
  rw [takeArgument, isModuleArgument_eq]
  simp only [hpath, moduleArgument, ← and_assoc, decide_eq_true_iff]
  by_cases harg : modPrefix <+: word ∧ 1 ≤ (word.drop modPrefix.length).length
  · simp only [harg, true_and]
    by_cases hroom : m.count < MAX_BOOT_MODULES
    · have hshort : list.length < MAX_BOOT_MODULES := by omega
      have hall : list.take MAX_BOOT_MODULES = list := List.take_of_length_le hshort.le
      rw [hall] at htable
      rw [if_pos hroom]
      by_cases hfits : (word.drop modPrefix.length).length < MAX_BOOT_MODULE_PATH
      · obtain ⟨m', hadd, htable'⟩ := addPath_ok htable hshort hfits
        refine ⟨m', hadd, ?_⟩
        rw [if_pos (Nat.le_of_lt_succ hfits), Option.toList_some, List.take_of_length_le]
        · exact htable'
        · rw [List.length_append, List.length_singleton]
          omega
      · refine ⟨m, if_neg hfits, ?_⟩
        rw [if_neg fun h => hfits (Nat.lt_succ_of_le h), Option.toList_none, List.append_nil, hall]
        exact htable
    · have hfull : MAX_BOOT_MODULES ≤ list.length := by omega
      refine ⟨m, if_neg hroom, ?_⟩
      rw [List.take_append_of_le_length hfull]
      exact htable
  · refine ⟨m, if_neg fun h => harg h.1, ?_⟩
    rw [if_neg fun h => harg h.1, Option.toList_none, List.append_nil]
    exact htable

-- The table holds the first 16 of the paths found so far.
theorem collectBootModules_ok (arg : CString) : ∀ {m : BootModules} {list : List CString},
    Tabled m (list.take MAX_BOOT_MODULES) →
    ∃ m', collectBootModules arg m = .ok m' ∧
      Tabled m' ((list ++ moduleArguments arg).take MAX_BOOT_MODULES) := by
  induction hlen : arg.length using Nat.strong_induction_on generalizing arg with
  | _ n ih =>
    subst hlen
    intro m list htable
    rw [collectBootModules]
    split
    · next hnone =>
      rw [moduleArguments, words_none (nextArgument_none hnone), List.filterMap_nil, List.append_nil]
      exact ⟨m, rfl, htable⟩
    · next start stop hsome =>
      obtain ⟨word, hword, rfl⟩ := nextArgument_some hsome
      obtain ⟨m1, htake, htable1⟩ := takeArgument_ok htable word stop
      obtain ⟨m', hrest, htable'⟩ := ih stop.length (nextWord_spec hword).2.2.2 stop rfl htable1
      have hlength : (word ++ stop).length - stop.length = word.length := by
        rw [List.length_append, Nat.add_sub_cancel]
      have hall : moduleArguments arg = (moduleArgument word).toList ++ moduleArguments stop := by
        rw [moduleArguments, words_some hword, List.filterMap_cons]
        cases moduleArgument word <;> rfl
      rw [hlength, htake, hall, ← List.append_assoc]
      exact ⟨m', hrest, htable'⟩

-- The table is the first 16 paths, in their order.
theorem boot_modules_exact (cmdline : CString) (paths : ℕ → ℕ → BitVec 8) :
    ∃ m, collectBootModules cmdline ⟨paths, 0⟩ = .ok m ∧
      bootModuleCount m = ((moduleArguments cmdline).take MAX_BOOT_MODULES).length ∧
      ∀ index,
        (∀ path ∈ ((moduleArguments cmdline).take MAX_BOOT_MODULES)[index]?,
          ∃ row ∈ bootModulePath m index, Holds row path) ∧
        (((moduleArguments cmdline).take MAX_BOOT_MODULES)[index]? = none →
          bootModulePath m index = none) := by
  have hempty : Tabled ⟨paths, 0⟩ (([] : List CString).take MAX_BOOT_MODULES) :=
    ⟨rfl, fun i hi => absurd hi (Nat.not_lt_zero i)⟩
  obtain ⟨m, hm, htable⟩ := collectBootModules_ok cmdline hempty
  rw [List.nil_append] at htable
  refine ⟨m, hm, htable.count, fun index => ⟨fun path hpath => ?_, fun hnone => ?_⟩⟩
  · obtain ⟨hlt, rfl⟩ := List.getElem?_eq_some_iff.mp hpath
    refine ⟨m.paths index, if_neg ?_, htable.rows index hlt⟩
    rw [htable.count]
    omega
  · rw [List.getElem?_eq_none_iff, ← htable.count] at hnone
    exact if_pos hnone

end Modules

end Miyabi.Cmdline
