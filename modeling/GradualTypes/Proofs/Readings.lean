import Mathlib.Data.List.Chain
import GradualTypes.Proofs.Lexemes

/-!
# Configurations and lexemes

A configuration is read from tokens none of which is broken and of which no two adjacent ones are
values.  So it is read from a text if and only if it is read from the tokens of its lexemes: two
texts with the same lexemes are read as the same configuration, or neither is read.
-/

namespace GradualTypes
namespace Config

open Json

namespace Json

/-- Two values do not stand side by side. -/
def Token.MayPrecede (t u : Token) : Prop :=
  t.isScalar = true -> u.isScalar = false

/-- No token is broken, and no two adjacent ones are values. -/
structure IsProper (ts : List Token) : Prop where
  unbroken : ∀ t ∈ ts, t.isBroken = false
  apart : ts.IsChain Token.MayPrecede

variable {t : Token} {ts : List Token}

theorem isProper_nil : IsProper [] where
  unbroken := by simp
  apart := .nil

theorem IsProper.mark (hts : IsProper ts) (hbroken : t.isBroken = false)
    (hscalar : t.isScalar = false) : IsProper (t :: ts) where
  unbroken := List.forall_mem_cons.mpr ⟨hbroken, hts.unbroken⟩
  apart := List.isChain_cons.mpr ⟨fun u _ ht => by simp [hscalar] at ht, hts.apart⟩

theorem IsProper.value (hts : IsProper ts) (ht : t.isScalar = true)
    (hhead : ∀ u ∈ ts.head?, u.isScalar = false) : IsProper (t :: ts) where
  unbroken := List.forall_mem_cons.mpr ⟨Token.not_broken_of_isScalar ht, hts.unbroken⟩
  apart := List.isChain_cons.mpr ⟨fun u hu _ => hhead u hu, hts.apart⟩

end Json

variable {config config' : Config} {tokens rest : List Token} {unread fields : List Field}

theorem value_of_readText {v : Option String} (hok : readText tokens = .ok (v, rest)) :
    ∃ t, t.isScalar = true ∧ tokens = t :: rest := by
  unfold readText at hok
  split at hok <;> cases hok <;> exact ⟨_, rfl, rfl⟩

theorem value_of_readSize {v : Option Nat} (hok : readSize tokens = .ok (v, rest)) :
    ∃ t, t.isScalar = true ∧ tokens = t :: rest := by
  unfold readSize at hok
  split at hok <;> cases hok <;> exact ⟨_, rfl, rfl⟩

theorem value_of_readFlag {v : Option Bool} (hok : readFlag tokens = .ok (v, rest)) :
    ∃ t, t.isScalar = true ∧ tokens = t :: rest := by
  unfold readFlag at hok
  split at hok
  · cases hok
    exact ⟨_, rfl, rfl⟩
  · cases hok
    exact ⟨_, rfl, rfl⟩
  · split at hok <;> cases hok
    exact ⟨_, rfl, rfl⟩
  · simp only [bind, Except.bind] at hok
    split at hok <;> cases hok

/-- A field is read from one value. -/
theorem value_of_readField {field : Field}
    (hok : readField config tokens field = .ok (config', rest)) :
    ∃ t, t.isScalar = true ∧ tokens = t :: rest := by
  cases field <;> simp only [readField, bind, Except.bind, pure, Except.pure] at hok <;>
    split at hok <;> cases hok <;> rename_i hread
  · exact value_of_readText hread
  · exact value_of_readFlag hread
  · exact value_of_readSize hread
  · exact value_of_readSize hread
  · exact value_of_readSize hread
  · exact value_of_readFlag hread

/-- The value of a field and what follows it, after something that is no value. -/
theorem isProper_of_readField {field : Field} {t : Token} (hts : IsProper rest)
    (hread : readField config tokens field = .ok (config', rest))
    (hrest : ∀ u ∈ rest.head?, u.isScalar = false) (hbroken : t.isBroken = false)
    (ht : t.isScalar = false) : IsProper (t :: tokens) := by
  obtain ⟨u, hu, rfl⟩ := value_of_readField hread
  exact (hts.value hu hrest).mark hbroken ht

theorem isProper_of_readMembers (hok : readMembers unread config tokens = .ok (config', [])) :
    IsProper tokens := by
  fun_induction readMembers unread config tokens
  case case3 hread =>
    cases hok
    have hend : IsProper [.closeObject] := isProper_nil.mark rfl rfl
    exact (isProper_of_readField hend hread (by simp [Token.isScalar]) rfl rfl).value rfl
      (by simp [Token.isScalar])
  case case4 hread ih =>
    have hmore := (ih hok).mark (t := .comma) rfl rfl
    exact (isProper_of_readField hmore hread (by simp [Token.isScalar]) rfl rfl).value rfl
      (by simp [Token.isScalar])
  all_goals cases hok

theorem isProper_of_readElements (hok : readElements config tokens fields = .ok (config', [])) :
    IsProper tokens ∧ ∀ t ∈ tokens.head?, t.isScalar = false := by
  fun_induction readElements config tokens fields
  case case1 =>
    cases hok
    exact ⟨isProper_nil.mark rfl rfl, by simp [Token.isScalar]⟩
  case case3 =>
    cases hok
    exact ⟨isProper_nil.mark rfl rfl, by simp [Token.isScalar]⟩
  case case4 config field fields rest ih =>
    simp only [bind, Except.bind] at hok
    split at hok
    · cases hok
    · rename_i hread
      obtain ⟨hmore, hhead⟩ := ih _ _ hok
      exact ⟨isProper_of_readField hmore hread hhead rfl rfl, by simp [Token.isScalar]⟩
  all_goals cases hok

theorem eq_of_ended {x : Except Fault (Config × List Token)}
    (hok : (x >>= fun r => match r.2 with
      | [] => .ok r.1
      | _ :: _ => .error .malformed) = .ok config) : x = .ok (config, []) := by
  cases x with
  | error fault => cases hok
  | ok r =>
      obtain ⟨config', rest⟩ := r
      cases rest with
      | nil =>
          cases hok
          rfl
      | cons t rest => cases hok

theorem isProper_of_readObject (hok : readObject tokens = .ok (config, [])) : IsProper tokens := by
  unfold readObject at hok
  split at hok
  · cases hok
    exact isProper_nil.mark rfl rfl
  · exact isProper_of_readMembers hok

theorem isProper_of_readList (hok : readList tokens = .ok (config, [])) : IsProper tokens := by
  unfold readList at hok
  split at hok
  · cases hok
    exact isProper_nil.mark rfl rfl
  · obtain ⟨hproper, -⟩ := isProper_of_readElements hok
    exact ⟨(List.forall_mem_cons.mp hproper.unbroken).2, hproper.apart.tail⟩

/-- The tokens of a configuration are proper. -/
theorem isProper_of_ofTokens (hok : ofTokens tokens = .ok config) : IsProper tokens := by
  unfold ofTokens at hok
  split at hok
  · exact (isProper_of_readObject (eq_of_ended hok)).mark rfl rfl
  · exact (isProper_of_readList (eq_of_ended hok)).mark rfl rfl
  · cases hok

theorem tokens?_of_isProper {cs : List Char} (hproper : IsProper (Token.scan cs)) :
    tokens? cs = some (Token.scan cs) := by
  have hunbroken : (Token.scan cs).any Token.isBroken = false := by
    simpa using hproper.unbroken
  simp [tokens?, Token.unbroken?, hunbroken]

/-- A configuration is read from a text if it is read from the tokens of its lexemes. -/
theorem ofTokens_scan_eq_ok_iff {cs : List Char} :
    ofTokens (Token.scan cs) = .ok config ↔
      ∃ ts, tokensOfLexemes? (lexemes cs) = some ts ∧ IsProper ts ∧ ofTokens ts = .ok config := by
  rw [← tokens?_eq_tokensOfLexemes?]
  constructor
  · intro hok
    have hproper := isProper_of_ofTokens hok
    exact ⟨Token.scan cs, tokens?_of_isProper hproper, hproper, hok⟩
  · rintro ⟨ts, hts, -, hok⟩
    rw [Token.unbroken?_eq_some hts] at hok
    exact hok

/-- Two texts with the same lexemes are read as the same configuration, or neither is read. -/
theorem ofTokens_scan_congr {cs cs' : List Char} (hsame : lexemes cs = lexemes cs') :
    ofTokens (Token.scan cs) = .ok config ↔ ofTokens (Token.scan cs') = .ok config := by
  rw [ofTokens_scan_eq_ok_iff, ofTokens_scan_eq_ok_iff, hsame]

end Config
end GradualTypes
