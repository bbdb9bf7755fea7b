import Chip8.CommandLine.Parser
import Chip8.Proofs.Numerals

/-!
# What a command line says

A command line says one thing after the other: which file it is, that a flag is set, that an option
has a value. `Clause` is one such thing, and `Clause.spellings` are the ways of writing it. A command line
that is written in any of these ways is understood by taking its clauses from left to right, whatever
their order. A value below zero that stands as a word of its own is taken for a value and not for an
option, since it reads as a number.

* `ofWords_spelling` and `consume_of_reads`: the tokens of a clause, and what they do.
* `parse_written`: to understand a command line is to heed its clauses.
-/

namespace Chip8.CommandLine

/-- One thing that a command line says. -/
inductive Clause
  /-- This is the file. -/
  | file (name : String)
  /-- This flag is set. -/
  | flag (f : Flag)
  /-- This option has this value. -/
  | value (key : Key) (n : Int)
  deriving DecidableEq

/-- The words that set a flag. -/
def Flag.names : Flag → List String
  | .help => ["-h", "--help"]
  | .list => ["-l", "--list"]
  | .debug => ["-d", "--debug"]

/-- The long name of an option that has a value. -/
def Key.longName : Key → String
  | .cycles => "--cycles"
  | .overlayStack => "--stack_quirks"
  | .transferAll => "--block_quirks"

/-- The words that name an option whose value is the next word. -/
def Key.names : Key → List String
  | .cycles => ["-n", "--cycles"]
  | .overlayStack => ["--stack_quirks"]
  | .transferAll => ["--block_quirks"]

namespace Clause

/-- The ways of writing a clause. A value is the word behind its option, or it follows the long name
in the same word behind an equals sign. -/
def spellings : Clause → List (List String)
  | .file name => [[name]]
  | .flag f => f.names.map fun name => [name]
  | .value key n =>
    (key.names.map fun name => [name, Text.decimal n]) ++ [[key.longName ++ "=" ++ Text.decimal n]]

/-- Whether a word begins with a dash. -/
def dashed (word : String) : Bool := word.toList.head? == some '-'

end Clause

/-- The words write the clauses, each of them in one of its spellings. -/
inductive Written : List Clause → List String → Prop
  | nil : Written [] []
  | cons {c : Clause} {cs : List Clause} {ws rest : List String} (hws : ws ∈ c.spellings) (hrest : Written cs rest) :
      Written (c :: cs) (ws ++ rest)

/-- All that can be said can be written. -/
theorem exists_written (cs : List Clause) : ∃ ws, Written cs ws := by
  induction cs with
  | nil => exact ⟨[], .nil⟩
  | cons c cs ih =>
    obtain ⟨rest, hrest⟩ := ih
    have hspelling : ∃ ws, ws ∈ c.spellings := by
      cases c with
      | file name => exact ⟨_, List.mem_singleton_self _⟩
      | flag f => cases f <;> exact ⟨_, List.mem_cons_self⟩
      | value key n => exact ⟨_, List.mem_append_right _ (List.mem_singleton_self _)⟩
    obtain ⟨ws, hws⟩ := hspelling
    exact ⟨ws ++ rest, .cons hws hrest⟩

/-! ### The tokens of a clause -/

/-- The tokens of a clause. -/
inductive Clause.Reads : Clause → List Token → Prop
  | file {name : String} : Reads (.file name) [.operand name]
  | flag {f : Flag} : Reads (.flag f) [.options [f] .none]
  /-- The value is the next word. -/
  | apart {key : Key} {n : Int} : Reads (.value key n) [.options [] (.awaiting key), .operand (Text.decimal n)]
  /-- The value is in the same word. -/
  | joined {key : Key} {n : Int} : Reads (.value key n) [.options [] (.valued key (Text.decimal n).toList)]

namespace Token

variable {word : String} {t : Token}

theorem ofWord_name_flag {f : Flag} (h : word ∈ f.names) : ofWord word = some (.options [f] .none) := by
  cases f <;> simp only [Flag.names, List.mem_cons, List.not_mem_nil, or_false] at h <;>
    rcases h with rfl | rfl <;> decide

theorem ofWord_name_key {key : Key} (h : word ∈ key.names) : ofWord word = some (.options [] (.awaiting key)) := by
  cases key <;> simp only [Key.names, List.mem_cons, List.not_mem_nil, or_false] at h
  case cycles => rcases h with rfl | rfl <;> decide
  case overlayStack => subst h; decide
  case transferAll => subst h; decide

/-- What is behind the first equals sign of such a word is the value. -/
theorem ofWord_joined (key : Key) (value : String) :
    ofWord (key.longName ++ "=" ++ value) = some (.options [] (.valued key value.toList)) := by
  have hkey : ∃ name : List Char, key.longName.toList = '-' :: '-' :: name ∧ '=' ∉ name ∧
      longMatches name = [.key key] := by
    cases key
    · exact ⟨"cycles".toList, by decide⟩
    · exact ⟨"stack_quirks".toList, by decide⟩
    · exact ⟨"block_quirks".toList, by decide⟩
  obtain ⟨name, hlong, hequals, hmatches⟩ := hkey
  have hword : (key.longName ++ "=" ++ value).toList = '-' :: '-' :: (name ++ '=' :: value.toList) := by
    simp [hlong]
  have hname : ∀ c ∈ name, (c != '=') = true := fun c hc => by
    simpa using fun h : c = '=' => hequals (h ▸ hc)
  have htake : (name ++ '=' :: value.toList).takeWhile (· != '=') = name := by
    rw [List.takeWhile_append_of_pos hname]
    simp
  have hdrop : (name ++ '=' :: value.toList).dropWhile (· != '=') = '=' :: value.toList := by
    rw [List.dropWhile_append_of_pos hname]
    simp
  simp [ofWord, hword, htake, hmatches, attached, hdrop, Switch.token]

/-- A word without a dash at its beginning is an operand. -/
theorem ofWord_of_not_dashed (h : Clause.dashed word = false) : ofWord word = some (.operand word) := by
  unfold ofWord
  split
  case h_1 hword => simp [Clause.dashed, hword] at h
  case h_2 hword => simp [Clause.dashed, hword] at h
  case h_3 => rfl

theorem letter?_of_isDigit {c : Char} (h : c.isDigit) : letter? c = none := by
  unfold letter?
  split
  case h_5 => rfl
  all_goals exact absurd h (by decide)

/-- A number that is written as a word of its own is an operand, even if it is below zero. -/
theorem ofWord_decimal (n : Int) : ofWord (Text.decimal n) = some (.operand (Text.decimal n)) := by
  obtain ⟨c, rest, hdigits⟩ := List.exists_cons_of_ne_nil (Nat.toDigits_ne_nil (n := n.natAbs) (b := 10))
  have hc : c.isDigit := Text.isDigit_of_mem_toDigits (n := n.natAbs) (hdigits ▸ List.mem_cons_self)
  have hword := Text.toList_decimal n
  rw [Text.sign, hdigits] at hword
  by_cases hneg : n < 0
  · rw [if_pos hneg, List.singleton_append] at hword
    have hdash : c ≠ '-' := Text.ne_of_isDigit hc (by decide)
    have hdecimal : Text.isDecimal (c :: rest) = true := hdigits ▸ Text.isDecimal_toDigits n.natAbs
    have hother : otherwise (Text.decimal n) = .operand (Text.decimal n) := by simp [otherwise, hword, hdecimal]
    unfold ofWord
    split
    case h_1 hlong =>
      rw [hword] at hlong
      cases hlong
      exact absurd rfl hdash
    case h_2 hletter =>
      rw [hword] at hletter
      cases hletter
      rw [letter?_of_isDigit hc, hother]
    case h_3 => rfl
  · rw [if_neg hneg, List.nil_append] at hword
    refine ofWord_of_not_dashed ?_
    simpa [Clause.dashed, hword] using Text.ne_of_isDigit hc (by decide)

/-- A word that is read by itself is followed by what the others are. -/
theorem ofWords_cons {rest : List String} (h : ofWord word = some t) :
    ofWords (word :: rest) = (ofWords rest).map (t :: ·) := by
  have hmark : word ≠ "--" := by
    rintro rfl
    have hread : ofWord "--" = none := by decide
    rw [hread] at h
    cases h
  rw [ofWords, if_neg hmark, h]
  cases ofWords rest <;> rfl

end Token

/-- A clause whose file is not taken for an option is read in any of its spellings. -/
theorem Clause.ofWords_spelling {c : Clause} {ws : List String} (hfile : ∀ name, c = .file name → dashed name = false)
    (hws : ws ∈ c.spellings) :
    ∃ ts, c.Reads ts ∧ ∀ rest, Token.ofWords (ws ++ rest) = (Token.ofWords rest).map (ts ++ ·) := by
  cases c with
  | file name =>
    obtain rfl := List.mem_singleton.mp hws
    exact ⟨_, .file, fun rest => Token.ofWords_cons (Token.ofWord_of_not_dashed (hfile name rfl))⟩
  | flag f =>
    obtain ⟨name, hname, rfl⟩ := List.mem_map.mp hws
    exact ⟨_, .flag, fun rest => Token.ofWords_cons (Token.ofWord_name_flag hname)⟩
  | value key n =>
    rcases List.mem_append.mp hws with hapart | hjoined
    · obtain ⟨name, hname, rfl⟩ := List.mem_map.mp hapart
      refine ⟨_, .apart, fun rest => ?_⟩
      rw [List.cons_append, List.singleton_append, Token.ofWords_cons (Token.ofWord_name_key hname),
        Token.ofWords_cons (Token.ofWord_decimal n), Option.map_map]
      rfl
    · obtain rfl := List.mem_singleton.mp hjoined
      exact ⟨_, .joined, fun rest => Token.ofWords_cons (Token.ofWord_joined key (Text.decimal n))⟩

/-! ### What a clause does -/

namespace Draft

/-- Heeds a clause. -/
def heed (d : Draft) : Clause → Except Stop Draft
  | .file name => .ok (d.operand name)
  | .flag f => d.flag f
  | .value key n => d.assign key (Text.decimal n).toList

/-- The tokens of a clause do what it says. No mark `--` follows, which would go with a file. -/
theorem consume_of_reads {c : Clause} {ts rest : List Token} (h : c.Reads ts) (hrest : .terminator ∉ rest)
    (d : Draft) : d.consume (ts ++ rest) = d.heed c >>= (·.consume rest) := by
  cases h with
  | file =>
    cases rest with
    | nil => rfl
    | cons t rest =>
      cases t with
      | terminator => exact absurd List.mem_cons_self hrest
      | _ => rfl
  | @flag f =>
    simp only [List.singleton_append, consume, List.foldlM_cons, List.foldlM_nil, bind_pure, heed]
  | apart => rfl
  | joined => rfl

end Draft

theorem Clause.Reads.terminator_not_mem {c : Clause} {ts : List Token} (h : c.Reads ts) : .terminator ∉ ts := by
  cases h <;> simp

/-- The tokens of a line do what its clauses say, from left to right. -/
theorem Written.ofWords {cs : List Clause} {ws : List String} (h : Written cs ws)
    (hfile : ∀ name, .file name ∈ cs → Clause.dashed name = false) :
    ∃ ts, Token.ofWords ws = some ts ∧ .terminator ∉ ts ∧ ∀ d : Draft, d.consume ts = cs.foldlM Draft.heed d := by
  induction h with
  | nil => exact ⟨[], rfl, List.not_mem_nil, fun _ => rfl⟩
  | @cons c cs ws rest hws _ ih =>
    obtain ⟨ts, hreads, hwords⟩ := Clause.ofWords_spelling (fun name hc => hfile name (hc ▸ List.mem_cons_self)) hws
    obtain ⟨ts', hrest, hmark, hconsume⟩ := ih fun name hname => hfile name (List.mem_cons_of_mem c hname)
    refine ⟨ts ++ ts', ?_, ?_, fun d => ?_⟩
    · rw [hwords, hrest]
      rfl
    · rw [List.mem_append]
      exact not_or_intro hreads.terminator_not_mem hmark
    · rw [Draft.consume_of_reads hreads hmark, List.foldlM_cons]
      exact bind_congr fun d' => hconsume d'

/-- **To understand a command line is to heed its clauses** from left to right, in whatever way each of
them is written. -/
theorem parse_written {cs : List Clause} {ws : List String} (h : Written cs ws)
    (hfile : ∀ name, .file name ∈ cs → Clause.dashed name = false) :
    parse ws = cs.foldlM Draft.heed Draft.empty >>= Draft.finish := by
  obtain ⟨ts, hwords, -, hconsume⟩ := h.ofWords hfile
  simp only [parse, hwords, hconsume]

end Chip8.CommandLine
