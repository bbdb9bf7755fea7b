import Chip8.Proofs.Clauses

/-!
# Selections of options

A selection is what a user may ask for: a file, and for each option whether it is given and with
which value. It is said by clauses, one for each thing that it has. Their order does not matter, because
clauses about different things commute. Nor does it matter what was said before about an option that is
given again, because the later clause replaces it.

* `foldl_said_of_perm` and `foldl_said_of_mem`: clauses in another order, and clauses that are replaced.
* `heed_of_valid` and `heed_of_not_switch`: which clauses are heeded, and which value of a switch is refused.
* `every_selection_is_expressed`: every selection is understood from each line that says it. With another
  value for a switch, or without the file, the line is not understood.
-/

namespace Chip8.CommandLine

/-- A choice that was made with a value, or not at all. -/
def Choice.ofOption {α : Type} : Option α → Choice α
  | none => .absent
  | some a => .value a

/-- What a user may ask for. -/
structure Selection where
  /-- The file with the program. -/
  filename : String
  /-- How many instructions to execute. -/
  cycles : Option Int
  /-- Whether to list the program instead of running it. -/
  list : Bool
  /-- Whether to trace. -/
  debug : Bool
  /-- Whether return addresses are kept in memory. -/
  overlayStack : Option Bool
  /-- Whether block transfers take all registers. -/
  transferAll : Option Bool
  /-- The file is not mistaken for an option. -/
  filename_not_dashed : Clause.dashed filename = false
  /-- The number is not too long to be read. -/
  digitCount_cycles : ∀ n ∈ cycles, Text.digitCount n ≤ Text.maxDigits

/-- A selection as it is understood. -/
def Selection.arguments (s : Selection) : Arguments where
  filename := s.filename
  cycles := .ofOption s.cycles
  list := s.list
  debug := s.debug
  overlayStack := .ofOption s.overlayStack
  transferAll := .ofOption s.transferAll

/-- What a selection says about an option, if the option is given. -/
def Selection.clause? (s : Selection) : Switch → Option Clause
  | .flag .help => none
  | .flag .list => if s.list then some (.flag .list) else none
  | .flag .debug => if s.debug then some (.flag .debug) else none
  | .key .cycles => s.cycles.map (.value .cycles)
  | .key .overlayStack => s.overlayStack.map fun b => .value .overlayStack b.toInt
  | .key .transferAll => s.transferAll.map fun b => .value .transferAll b.toInt

/-- The clauses that say a selection, each of them once. -/
def Selection.clauses (s : Selection) : List Clause :=
  .file s.filename ::
    [.key .cycles, .flag .list, .key .overlayStack, .key .transferAll, .flag .debug].filterMap s.clause?

namespace Clause

/-- The option that a clause is about, if it is not about the file. -/
def option? : Clause → Option Switch
  | .file _ => none
  | .flag f => some (.flag f)
  | .value key _ => some (.key key)

/-- Whether a clause can be heeded. The value of a switch is zero or one. -/
def Valid : Clause → Prop
  | .file name => dashed name = false
  | .flag f => f ≠ .help
  | .value .cycles n => Text.digitCount n ≤ Text.maxDigits
  | .value .overlayStack n | .value .transferAll n => n = 0 ∨ n = 1

instance : DecidablePred Valid
  | .file _ => inferInstanceAs (Decidable (_ = _))
  | .flag _ => inferInstanceAs (Decidable (_ ≠ _))
  | .value .cycles _ => inferInstanceAs (Decidable (_ ≤ _))
  | .value .overlayStack _ | .value .transferAll _ => inferInstanceAs (Decidable (_ ∨ _))

end Clause

/-- The clauses are those that say each thing once, and among them clauses that repeat an option: each of
these is valid, and the option is given again after it. -/
inductive Repeats (once : List Clause) : List Clause → Prop
  | refl : Repeats once once
  | again {before after : List Clause} {c e : Clause} (h : Repeats once (before ++ after)) (hc : c.Valid)
      (he : e ∈ after) (hsame : c.option? = e.option?) (hoption : c.option? ≠ none) :
      Repeats once (before ++ c :: after)

/-! ### What is said -/

namespace Draft

/-- A draft once a clause was heeded. -/
def said (d : Draft) : Clause → Draft
  | .file name => d.operand name
  | .flag .help => d
  | .flag .list => { d with list := true }
  | .flag .debug => { d with debug := true }
  | .value .cycles n => { d with cycles := .value n }
  | .value .overlayStack n => { d with overlayStack := .value (n == 1) }
  | .value .transferAll n => { d with transferAll := .value (n == 1) }

variable {d : Draft} {c e : Clause} {cs ds : List Clause}

/-- The file is put down in the same way before and after an option. -/
theorem said_operand (name : String) (hc : c.option? ≠ none) :
    (d.operand name).said c = (d.said c).operand name := by
  obtain ⟨filename, cycles, list, debug, overlayStack, transferAll, leftover⟩ := d
  cases c with
  | file _ => exact absurd rfl hc
  | flag f => cases f <;> cases filename <;> rfl
  | value key n => cases key <;> cases filename <;> rfl

/-- Clauses about different things commute. -/
theorem said_comm (h : c.option? ≠ e.option?) : (d.said c).said e = (d.said e).said c := by
  cases c with
  | file name => exact said_operand name h.symm
  | flag f =>
    cases e with
    | file name => exact (said_operand name h).symm
    | flag f' => cases f <;> cases f' <;> simp_all [said, Clause.option?]
    | value key n => cases f <;> cases key <;> rfl
  | value key n =>
    cases e with
    | file name => exact (said_operand name h).symm
    | flag f => cases f <;> cases key <;> rfl
    | value key' n' => cases key <;> cases key' <;> simp_all [said, Clause.option?]

/-- Of two clauses about one option, the second one counts. -/
theorem said_said (hsame : c.option? = e.option?) (hc : c.option? ≠ none) : (d.said c).said e = d.said e := by
  cases c with
  | file name => exact absurd rfl hc
  | flag f =>
    cases e with
    | flag f' =>
      obtain rfl : f = f' := by simpa [Clause.option?] using hsame
      cases f <;> rfl
    | file | value => cases hsame
  | value key n =>
    cases e with
    | value key' n' =>
      obtain rfl : key = key' := by simpa [Clause.option?] using hsame
      cases key <;> rfl
    | file | flag => cases hsame

/-- **The order of clauses does not matter** if no two of them are about the same thing. -/
theorem foldl_said_of_perm (h : cs.Perm ds) (hsingle : ∀ c ∈ cs, ∀ e ∈ cs, c.option? = e.option? → c = e) :
    cs.foldl said d = ds.foldl said d := by
  refine h.foldl_eq' (fun c hc e he d' => ?_) d
  by_cases hsame : c.option? = e.option?
  · rw [hsingle c hc e he hsame]
  · exact said_comm hsame

/-- **What is said of an option does not matter if it is given again** further on. -/
theorem foldl_said_of_mem (he : e ∈ cs) (hsame : c.option? = e.option?) (hc : c.option? ≠ none) :
    cs.foldl said (d.said c) = cs.foldl said d := by
  induction cs generalizing d with
  | nil => cases he
  | cons a cs ih =>
    rw [List.foldl_cons, List.foldl_cons]
    by_cases ha : c.option? = a.option?
    · rw [said_said ha hc]
    · -- the clause is moved past one about something else
      have hin : e ∈ cs := (List.mem_cons.mp he).resolve_left fun h => ha (h ▸ hsame)
      rw [said_comm ha, ih hin]

/-- An option does not name a file. -/
theorem filename_foldl_said (h : ∀ c ∈ cs, c.option? ≠ none) : (cs.foldl said d).filename = d.filename := by
  induction cs generalizing d with
  | nil => rfl
  | cons c cs ih =>
    rw [List.foldl_cons, ih fun e he => h e (List.mem_cons_of_mem c he)]
    have hc := h c List.mem_cons_self
    cases c with
    | file name => exact absurd rfl hc
    | flag f => cases f <;> rfl
    | value key n => cases key <;> rfl

/-! ### What is heeded -/

/-- A number is never the mark `--`, which would stand for no value. -/
theorem choose_decimal {α : Type} (read : List Char → Option α) (n : Int) :
    choose read (Text.decimal n).toList = match read (Text.decimal n).toList with
      | some a => .ok (.value a)
      | none => .error .usage := by
  refine if_neg fun h => ?_
  obtain ⟨c, hc⟩ := List.exists_mem_of_ne_nil _ (Nat.toDigits_ne_nil (n := n.natAbs) (b := 10))
  have hmem : c ∈ (Text.decimal n).toList := Text.toList_decimal n ▸ List.mem_append_right _ hc
  have hdash : c ≠ '-' := Text.ne_of_isDigit (Text.isDigit_of_mem_toDigits hc) (by decide)
  rw [h] at hmem
  simp [hdash] at hmem

/-- Of all integers, only zero and one are read as the value of a switch. -/
theorem switch?_decimal (n : Int) :
    switch? (Text.decimal n).toList = if n = 0 then some false else if n = 1 then some true else none := by
  by_cases h0 : n = 0
  · subst h0
    decide
  · by_cases h1 : n = 1
    · subst h1
      decide
    · rw [if_neg h0, if_neg h1, switch?, Text.integer?_decimal]
      split <;> simp_all

theorem heed_of_valid (h : c.Valid) : d.heed c = .ok (d.said c) := by
  cases c with
  | file name => rfl
  | flag f =>
    cases f with
    | help => exact absurd rfl h
    | list | debug => rfl
  | value key n =>
    cases key with
    | cycles =>
      have hshort : Text.digitCount n ≤ Text.maxDigits := h
      rw [heed, assign, choose_decimal, Text.integer?_decimal, if_pos hshort]
      rfl
    | overlayStack | transferAll =>
      rw [heed, assign, choose_decimal, switch?_decimal]
      rcases h with rfl | rfl <;> rfl

/-- A switch is neither on nor off by any other number. -/
theorem heed_of_not_switch {key : Key} {q : Int} (hkey : key ≠ .cycles) (h0 : q ≠ 0) (h1 : q ≠ 1) :
    d.heed (.value key q) = .error .usage := by
  cases key with
  | cycles => exact absurd rfl hkey
  | overlayStack | transferAll =>
    rw [heed, assign, choose_decimal, switch?_decimal, if_neg h0, if_neg h1]
    rfl

theorem foldlM_heed (h : ∀ c ∈ cs, c.Valid) : cs.foldlM heed d = .ok (cs.foldl said d) := by
  induction cs generalizing d with
  | nil => rfl
  | cons c cs ih =>
    rw [List.foldlM_cons, heed_of_valid (h c List.mem_cons_self)]
    exact ih fun e he => h e (List.mem_cons_of_mem c he)

end Draft

/-! ### Lines that say a selection -/

variable {cs once : List Clause} {s : Selection} {c e : Clause}

/-- The clauses say the selection: they are its own in any order, perhaps with options given before in
another way. -/
def Selection.SaidBy (s : Selection) (cs : List Clause) : Prop := ∃ once, once.Perm s.clauses ∧ Repeats once cs

namespace Selection

/-- What a selection says about an option is about this option and can be heeded. -/
theorem clause?_eq_some {o : Switch} (h : s.clause? o = some c) : c.option? = some o ∧ c.Valid := by
  unfold clause? at h
  split at h
  case h_1 => cases h
  case h_2 | h_3 =>
    split at h
    case isTrue =>
      cases h
      exact ⟨rfl, nofun⟩
    case isFalse => cases h
  case h_4 =>
    obtain ⟨n, hn, rfl⟩ := Option.map_eq_some_iff.mp h
    exact ⟨rfl, s.digitCount_cycles n hn⟩
  case h_5 | h_6 =>
    obtain ⟨b, -, rfl⟩ := Option.map_eq_some_iff.mp h
    cases b <;> exact ⟨rfl, by decide⟩

theorem mem_clauses (h : c ∈ s.clauses) : c = .file s.filename ∨ ∃ o, s.clause? o = some c := by
  refine (List.mem_cons.mp h).imp_right fun h => ?_
  obtain ⟨o, -, ho⟩ := List.mem_filterMap.mp h
  exact ⟨o, ho⟩

theorem valid_of_mem_clauses (h : c ∈ s.clauses) : c.Valid := by
  rcases mem_clauses h with rfl | ⟨o, ho⟩
  · exact s.filename_not_dashed
  · exact (clause?_eq_some ho).2

/-- A selection has one clause about each thing. -/
theorem eq_of_mem_clauses (hc : c ∈ s.clauses) (he : e ∈ s.clauses) (h : c.option? = e.option?) : c = e := by
  rcases mem_clauses hc with rfl | ⟨o, ho⟩ <;> rcases mem_clauses he with rfl | ⟨o', ho'⟩
  · rfl
  · cases h.trans (clause?_eq_some ho').1
  · cases (clause?_eq_some ho).1.symm.trans h
  · obtain rfl : o = o' := Option.some.inj <| by rw [← (clause?_eq_some ho).1, h, (clause?_eq_some ho').1]
    exact Option.some.inj (ho.symm.trans ho')

/-- What is understood from the clauses of a selection, each of them once. -/
theorem finish_foldl_said (s : Selection) : (s.clauses.foldl Draft.said Draft.empty).finish = .ok s.arguments := by
  obtain ⟨filename, cycles, list, debug, overlayStack, transferAll, _, _⟩ := s
  -- each option is given or not, and a switch is given as off or on
  rcases overlayStack with _ | _ | _ <;> rcases transferAll with _ | _ | _ <;> cases cycles <;> cases list <;>
    cases debug <;> rfl

theorem filter_file_clauses (s : Selection) : s.clauses.filter (·.option?.isNone) = [.file s.filename] := by
  rw [clauses, List.filter_cons_of_pos rfl, List.filter_eq_nil_iff.mpr]
  intro c hc
  obtain ⟨o, -, ho⟩ := List.mem_filterMap.mp hc
  simp [(clause?_eq_some ho).1]

end Selection

/-- What is said before of an option that is given again changes nothing of what is understood. -/
theorem Repeats.foldl_said (h : Repeats once cs) (d : Draft) : cs.foldl Draft.said d = once.foldl Draft.said d := by
  induction h with
  | refl => rfl
  | again _ _ he hsame hoption ih =>
    rw [← ih, List.foldl_append, List.foldl_cons, Draft.foldl_said_of_mem he hsame hoption, ← List.foldl_append]

theorem Repeats.valid (h : Repeats once cs) (hvalid : ∀ c ∈ once, c.Valid) : ∀ c ∈ cs, c.Valid := by
  induction h with
  | refl => exact hvalid
  | again _ hc _ _ _ ih =>
    intro e he
    rcases List.mem_append.mp he with hbefore | hafter
    · exact ih e (List.mem_append_left _ hbefore)
    · rcases List.mem_cons.mp hafter with rfl | hafter
      · exact hc
      · exact ih e (List.mem_append_right _ hafter)

/-- The file is named as often as before. -/
theorem Repeats.filter_file (h : Repeats once cs) :
    cs.filter (·.option?.isNone) = once.filter (·.option?.isNone) := by
  induction h with
  | refl => rfl
  | @again before after c _ _ _ _ _ hoption ih =>
    rw [← ih, List.filter_append, List.filter_append, List.filter_cons_of_neg]
    simpa using hoption

namespace Selection.SaidBy

theorem valid (h : s.SaidBy cs) : ∀ c ∈ cs, c.Valid := by
  obtain ⟨once, hperm, hrepeats⟩ := h
  exact hrepeats.valid fun c hc => valid_of_mem_clauses (hperm.mem_iff.mp hc)

/-- **A line that says a selection is understood as the selection.** -/
theorem finish (h : s.SaidBy cs) : (cs.foldl Draft.said Draft.empty).finish = .ok s.arguments := by
  obtain ⟨once, hperm, hrepeats⟩ := h
  have hsingle : ∀ c ∈ once, ∀ e ∈ once, c.option? = e.option? → c = e := fun c hc e he =>
    eq_of_mem_clauses (hperm.mem_iff.mp hc) (hperm.mem_iff.mp he)
  rw [hrepeats.foldl_said, Draft.foldl_said_of_perm hperm hsingle, finish_foldl_said]

/-- No clause becomes invalid when one is taken out. -/
theorem valid_of_mem {before after : List Clause} (h : s.SaidBy (before ++ c :: after)) :
    ∀ e ∈ before ++ after, e.Valid := fun e he =>
  h.valid e (((List.sublist_cons_self c after).append_left before).subset he)

/-- Such a line names the file once. -/
theorem filter_file (h : s.SaidBy cs) : cs.filter (·.option?.isNone) = [.file s.filename] := by
  obtain ⟨once, hperm, hrepeats⟩ := h
  rw [hrepeats.filter_file]
  exact List.perm_singleton.mp (filter_file_clauses s ▸ hperm.filter _)

/-- All its other clauses are about options. -/
theorem option?_ne_none {before after : List Clause} {name : String} (h : s.SaidBy (before ++ .file name :: after)) :
    ∀ c ∈ before ++ after, c.option? ≠ none := by
  have hcount := congrArg List.length h.filter_file
  rw [List.filter_append, List.filter_cons_of_pos rfl, List.length_append, List.length_cons, List.length_singleton]
    at hcount
  have hnil : (before ++ after).filter (·.option?.isNone) = [] := by
    rw [← List.length_eq_zero_iff, List.filter_append, List.length_append]
    omega
  intro c hc
  simpa using List.filter_eq_nil_iff.mp hnil c hc

end Selection.SaidBy

/-! ### Which lines are understood -/

/-- A line of valid clauses is understood as what its clauses say one after the other. -/
theorem parse_of_valid {ws : List String} (hws : Written cs ws) (h : ∀ c ∈ cs, c.Valid) :
    parse ws = (cs.foldl Draft.said Draft.empty).finish := by
  rw [parse_written hws fun name hname => h _ hname, Draft.foldlM_heed h]
  rfl

/-- A line that gives a switch another value than zero or one is not understood, whatever comes after it. -/
theorem parse_of_not_switch {before after : List Clause} {key : Key} {q : Int} {ws : List String}
    (hws : Written (before ++ .value key q :: after) ws) (hvalid : ∀ c ∈ before ++ after, c.Valid)
    (hkey : key ≠ .cycles) (h0 : q ≠ 0) (h1 : q ≠ 1) : parse ws = .error .usage := by
  have hfile : ∀ name, .file name ∈ before ++ .value key q :: after → Clause.dashed name = false := by
    intro name hname
    have hin : .file name ∈ before ++ after := by simpa using hname
    exact hvalid _ hin
  have hbefore : ∀ c ∈ before, c.Valid := fun c hc => hvalid c (List.mem_append_left after hc)
  rw [parse_written hws hfile, List.foldlM_append, Draft.foldlM_heed hbefore]
  simp only [List.foldlM_cons, Draft.heed_of_not_switch hkey h0 h1]
  rfl

/-- A line of valid clauses that names no file is not understood. -/
theorem parse_of_no_file {ws : List String} (hws : Written cs ws) (hvalid : ∀ c ∈ cs, c.Valid)
    (hnone : ∀ c ∈ cs, c.option? ≠ none) : parse ws = .error .usage := by
  have hfilename : (cs.foldl Draft.said Draft.empty).filename = none := Draft.filename_foldl_said hnone
  rw [parse_of_valid hws hvalid, Draft.finish, hfilename]

/-- **A command line expresses every selection, in any order.** The clauses of a selection can be written.
However they are written and in whatever order, and also if options are given before with other valid
values, the line is understood as the selection, where options that were not given are absent or off. If
one of the switches is given any number but zero and one instead, or if the file is left out, the line is
not understood and the exit status is 2. -/
theorem every_selection_is_expressed (s : Selection) :
    (s.SaidBy s.clauses ∧ ∃ ws, Written s.clauses ws) ∧
    ∀ cs, s.SaidBy cs →
      (∀ ws, Written cs ws → parse ws = .ok s.arguments) ∧
      (∀ before key n after q, cs = before ++ .value key n :: after → key ≠ .cycles → q ≠ 0 → q ≠ 1 →
        ∀ ws, Written (before ++ .value key q :: after) ws → ∃ stop, parse ws = .error stop ∧ stop.status = 2) ∧
      ∀ before name after, cs = before ++ .file name :: after →
        ∀ ws, Written (before ++ after) ws → ∃ stop, parse ws = .error stop ∧ stop.status = 2 := by
  refine ⟨⟨⟨_, .rfl, .refl⟩, exists_written _⟩, fun cs hcs => ⟨fun ws hws => ?_, ?_, ?_⟩⟩
  · rw [parse_of_valid hws hcs.valid, hcs.finish]
  · rintro before key n after q rfl hkey h0 h1 ws hws
    exact ⟨.usage, parse_of_not_switch hws hcs.valid_of_mem hkey h0 h1, rfl⟩
  · rintro before name after rfl ws hws
    exact ⟨.usage, parse_of_no_file hws hcs.valid_of_mem hcs.option?_ne_none, rfl⟩

/-- A file without a name, a limit below zero, a listing and an overlay. -/
def overlaying : Selection where
  filename := ""
  cycles := some (-5)
  list := true
  debug := false
  overlayStack := some true
  transferAll := none
  filename_not_dashed := by decide
  digitCount_cycles := by decide

/-- It is said in an order of its own, with another limit and another switch before. -/
theorem saidBy_overlaying : overlaying.SaidBy
    [.value .cycles 7, .value .cycles (-5), .value .overlayStack 0, .file "", .flag .list, .value .overlayStack 1] := by
  refine ⟨[.value .cycles (-5), .file "", .flag .list, .value .overlayStack 1], by decide, ?_⟩
  refine @Repeats.again _ [] _ (.value .cycles 7) (.value .cycles (-5)) ?_ (by decide) (by decide) rfl nofun
  exact @Repeats.again _ [.value .cycles (-5)] _ (.value .overlayStack 0) (.value .overlayStack 1) .refl (by decide)
    (by decide) rfl nofun

/-- The line is understood; with a switch of two, or without the file, it is not. -/
theorem every_selection_is_expressed_overlaying :
    parse ["-n", "7", "--cycles=-5", "--stack_quirks", "0", "", "-l", "--stack_quirks=1"] =
      .ok ⟨"", .value (-5), true, false, .value true, .absent⟩ ∧
    (∃ stop, parse ["-n", "7", "--cycles=-5", "--stack_quirks", "2", "", "-l", "--stack_quirks=1"] = .error stop ∧
      stop.status = 2) ∧
    ∃ stop, parse ["-n", "7", "--cycles=-5", "--stack_quirks", "0", "-l", "--stack_quirks=1"] = .error stop ∧
      stop.status = 2 := by
  obtain ⟨-, hlines⟩ := every_selection_is_expressed overlaying
  obtain ⟨hsaid, hswitch, hfile⟩ := hlines _ saidBy_overlaying
  have hlimits {cs : List Clause} {ws : List String} (h : Written cs ws) :
      Written (.value .cycles 7 :: .value .cycles (-5) :: cs) (["-n", "7"] ++ (["--cycles=-5"] ++ ws)) :=
    .cons (by decide) (.cons (by decide) h)
  have hflag : Written [.flag .list, .value .overlayStack 1] (["-l"] ++ (["--stack_quirks=1"] ++ [])) :=
    .cons (by decide) (.cons (by decide) .nil)
  have hnamed : Written [.file "", .flag .list, .value .overlayStack 1] ([""] ++ ["-l", "--stack_quirks=1"]) :=
    .cons (by decide) hflag
  refine ⟨?_, ?_, ?_⟩
  · exact hsaid (["-n", "7"] ++ (["--cycles=-5"] ++ (["--stack_quirks", "0"] ++ _)))
      (hlimits (.cons (by decide) hnamed))
  · exact hswitch [.value .cycles 7, .value .cycles (-5)] .overlayStack 0 _ 2 rfl (by decide) (by decide) (by decide)
      (["-n", "7"] ++ (["--cycles=-5"] ++ (["--stack_quirks", "2"] ++ _))) (hlimits (.cons (by decide) hnamed))
  · exact hfile [.value .cycles 7, .value .cycles (-5), .value .overlayStack 0] "" _ rfl
      (["-n", "7"] ++ (["--cycles=-5"] ++ (["--stack_quirks", "0"] ++ _))) (hlimits (.cons (by decide) hflag))

end Chip8.CommandLine
