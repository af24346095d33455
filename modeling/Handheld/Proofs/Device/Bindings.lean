import Handheld.Device.Keys
import Handheld.Proofs.Reading.Scanning
import Mathlib

/-!
# Files of key bindings

What a line may look like, which line a file fails at, and what a file that does
not fail says about each name. Behind all of it is `readRow_eq_entry_iff`: a line
is taken for a row exactly when it has the form of one.
-/

namespace Handheld

/-! ## White space at the ends -/

namespace Text

def Blank (cs : List Char) : Prop :=
  ∀ c ∈ cs, isSpace c

theorem blank_nil : Blank [] := nofun

theorem blank_iff_all {cs : List Char} : cs.all isSpace ↔ Blank cs :=
  List.all_eq_true

instance : DecidablePred Blank :=
  fun _ => decidable_of_iff _ blank_iff_all

theorem Blank.append {as bs : List Char} (ha : Blank as) (hb : Blank bs) : Blank (as ++ bs) :=
  List.forall_mem_append.2 ⟨ha, hb⟩

theorem dropWhile_blank {b : List Char} (h : Blank b) (cs : List Char) :
    (b ++ cs).dropWhile isSpace = cs.dropWhile isSpace :=
  List.dropWhile_append_of_pos h

theorem dropWhile_append_blank {b : List Char} (h : Blank b) (cs : List Char) :
    (cs ++ b).dropWhile isSpace = [] ∧ cs.dropWhile isSpace = [] ∨
      (cs ++ b).dropWhile isSpace = cs.dropWhile isSpace ++ b := by
  rw [List.dropWhile_append]
  split
  · rename_i hcs
    exact .inl ⟨List.dropWhile_eq_nil_iff.2 h, List.isEmpty_iff.1 hcs⟩
  · exact .inr rfl

theorem trimmed_blank_append {b : List Char} (h : Blank b) (cs : List Char) :
    trimmed (b ++ cs) = trimmed cs := by
  unfold trimmed
  rw [dropWhile_blank h]

theorem trimmed_append_blank {b : List Char} (h : Blank b) (cs : List Char) :
    trimmed (cs ++ b) = trimmed cs := by
  have hb : Blank b.reverse := fun c hc => h c (List.mem_reverse.1 hc)
  unfold trimmed
  rcases dropWhile_append_blank h cs with ⟨hcsb, hcs⟩ | hcsb
  · rw [hcsb, hcs]
  · rw [hcsb, List.reverse_append, dropWhile_blank hb]

theorem trimmed_of_solid {cs : List Char} (h : ∀ c ∈ cs, isSpace c = false) : trimmed cs = cs := by
  have hdrop : ∀ ds : List Char, (∀ c ∈ ds, isSpace c = false) → ds.dropWhile isSpace = ds := by
    intro ds hds
    cases ds with
    | nil => rfl
    | cons d ds => simp [hds d]
  unfold trimmed
  rw [hdrop cs h, hdrop _ fun c hc => h c (List.mem_reverse.1 hc), List.reverse_reverse]

theorem exists_trimmed (cs : List Char) :
    ∃ b₁ b₂, Blank b₁ ∧ Blank b₂ ∧ cs = b₁ ++ trimmed cs ++ b₂ := by
  have hblank : ∀ ds : List Char, Blank (ds.takeWhile isSpace) := fun ds c => List.mem_takeWhile_imp
  refine ⟨cs.takeWhile isSpace, ((cs.dropWhile isSpace).reverse.takeWhile isSpace).reverse,
    hblank _, fun c hc => hblank _ c (List.mem_reverse.1 hc), ?_⟩
  unfold trimmed
  rw [List.append_assoc, ← List.reverse_append, List.takeWhile_append_dropWhile,
    List.reverse_reverse, List.takeWhile_append_dropWhile]

end Text

open Text

namespace KeyMap

/-! ## The form of a row -/

/-- Digits that come to the code. There may be zeros in front. -/
structure IsDigits (code : UInt8) (ds : List Char) : Prop where
  nonempty : ds ≠ []
  digits : ∀ d ∈ ds, d.isDigit
  value : decimalValue ds = code.toNat

inductive IsCode (code : UInt8) : List Char → Prop
  | plain {ds : List Char} (h : IsDigits code ds) : IsCode code ds
  | plus {ds : List Char} (h : IsDigits code ds) : IsCode code ('+' :: ds)

structure IsName (name : String) : Prop where
  nonempty : name ≠ ""
  solid : ∀ c ∈ name.toList, isSpace c = false
  noColon : ':' ∉ name.toList

/-- A name, a colon and a code, with white space around them. The colon is the first one. -/
inductive Binds (name : String) (code : UInt8) : List Char → Prop
  | intro {b₁ b₂ b₃ b₄ cs : List Char} (h₁ : Blank b₁) (h₂ : Blank b₂) (h₃ : Blank b₃)
      (h₄ : Blank b₄) (hname : IsName name) (hcode : IsCode code cs) :
      Binds name code (b₁ ++ name.toList ++ b₂ ++ ':' :: (b₃ ++ cs ++ b₄))

/-- Neither blank nor a row. -/
def Faulty (cs : List Char) : Prop :=
  ¬ Blank cs ∧ ∀ name code, ¬ Binds name code cs

/-- What a comment leaves of a line. -/
def bare (line : List Char) : List Char :=
  line.takeWhile (· != '#')

/-! ## Codes -/

theorem isSpace_of_isDigit {d : Char} (h : d.isDigit) : isSpace d = false := by
  obtain ⟨hlow, hhigh⟩ := Char.isDigit_iff_toNat.1 h
  simp [isSpace, Char.reduceToNat] at hlow hhigh ⊢
  omega

theorem IsCode.solid {code : UInt8} {cs : List Char} (h : IsCode code cs) :
    ∀ c ∈ cs, isSpace c = false := by
  intro c hc
  cases h with
  | plain h => exact isSpace_of_isDigit (h.digits c hc)
  | plus h =>
    rcases List.mem_cons.1 hc with rfl | hc
    · decide
    · exact isSpace_of_isDigit (h.digits c hc)

/-- How the digits are read, behind a sign or without one. -/
def readDigits? (ds : List Char) : Option UInt8 :=
  if ds.isEmpty || !ds.all Char.isDigit then none
  else if decimalValue ds < 256 then some (UInt8.ofNat (decimalValue ds)) else none

theorem readDigits?_eq_some_iff {ds : List Char} {code : UInt8} :
    readDigits? ds = some code ↔ IsDigits code ds := by
  have hlt := code.toNat_lt
  constructor
  · intro h
    simp [readDigits?, ← UInt8.toNat_inj] at h
    exact ⟨h.1.1, h.1.2, by omega⟩
  · rintro ⟨hne, hds, hvalue⟩
    simp [readDigits?, hne, hvalue]
    exact ⟨hds, hlt⟩

theorem readCode?_of_plain {cs : List Char} (h : cs.head? ≠ some '+') :
    readCode? cs = readDigits? cs := by
  unfold readCode?
  split
  · exact absurd rfl h
  · rfl

theorem readCode?_eq_some_iff {cs : List Char} {code : UInt8} :
    readCode? cs = some code ↔ IsCode code cs := by
  by_cases hplus : cs.head? = some '+'
  · obtain ⟨cs, rfl⟩ := List.head?_eq_some_iff.1 hplus
    rw [show readCode? ('+' :: cs) = readDigits? cs from rfl, readDigits?_eq_some_iff]
    constructor
    · exact .plus
    · intro h
      cases h with
      | plain h => exact absurd (h.digits '+' List.mem_cons_self) (by decide)
      | plus h => exact h
  · rw [readCode?_of_plain hplus, readDigits?_eq_some_iff]
    constructor
    · exact .plain
    · intro h
      cases h with
      | plain h => exact h
      | plus => exact absurd rfl hplus

/-! ## Rows -/

theorem splits_at_colon {as : List Char} (h : ':' ∉ as) (bs : List Char) :
    (as ++ ':' :: bs).takeWhile (· != ':') = as ∧
      (as ++ ':' :: bs).dropWhile (· != ':') = ':' :: bs := by
  have has : ∀ a ∈ as, (a != ':') = true := fun a ha => bne_iff_ne.2 (ne_of_mem_of_not_mem ha h)
  rw [List.takeWhile_append_of_pos has, List.dropWhile_append_of_pos has]
  simp

theorem not_mem_colon_of_blank {b : List Char} (h : Blank b) : ':' ∉ b :=
  fun hmem => absurd (h ':' hmem) (by decide)

theorem Binds.colon_mem {name : String} {code : UInt8} {cs : List Char} (h : Binds name code cs) :
    ':' ∈ cs := by
  cases h
  simp

theorem Binds.not_blank {name : String} {code : UInt8} {cs : List Char} (h : Binds name code cs) :
    ¬ Blank cs :=
  fun hblank => not_mem_colon_of_blank hblank h.colon_mem

theorem binds_iff {name : String} {code : UInt8} {as bs : List Char} (has : ':' ∉ as) :
    Binds name code (as ++ ':' :: bs) ↔
      IsName name ∧ trimmed as = name.toList ∧ IsCode code (trimmed bs) := by
  constructor
  · intro h
    generalize hcs : as ++ ':' :: bs = cs at h
    obtain ⟨h₁, h₂, h₃, h₄, hname, hcode⟩ := h
    rename_i b₁ b₂ b₃ b₄ cs
    have hfront : ':' ∉ b₁ ++ name.toList ++ b₂ := by
      simp [not_mem_colon_of_blank h₁, not_mem_colon_of_blank h₂, hname.noColon]
    -- both are split at the first colon
    obtain ⟨htake, hdrop⟩ := splits_at_colon has bs
    obtain ⟨htake', hdrop'⟩ := splits_at_colon hfront (b₃ ++ cs ++ b₄)
    rw [hcs, htake'] at htake
    rw [hcs, hdrop', List.cons.injEq] at hdrop
    rw [← htake, ← hdrop.2, trimmed_append_blank h₂, trimmed_blank_append h₁,
      trimmed_append_blank h₄, trimmed_blank_append h₃, trimmed_of_solid hname.solid,
      trimmed_of_solid hcode.solid]
    exact ⟨hname, rfl, hcode⟩
  · rintro ⟨hname, has, hcode⟩
    obtain ⟨b₁, b₂, h₁, h₂, hfront⟩ := exists_trimmed as
    obtain ⟨b₃, b₄, h₃, h₄, hback⟩ := exists_trimmed bs
    rw [hfront, hback, has]
    exact .intro h₁ h₂ h₃ h₄ hname hcode

theorem readRow_of_colon {line as bs : List Char} (hbare : bare line = as ++ ':' :: bs)
    (has : ':' ∉ as) :
    readRow line =
      if (trimmed as).isEmpty || (trimmed as).any isSpace then .malformed
      else (readCode? (trimmed bs)).elim .malformed (.entry (String.ofList (trimmed as))) := by
  obtain ⟨htake, hdrop⟩ := splits_at_colon has bs
  have hblank : ¬ (bare line).all isSpace := by
    rw [blank_iff_all, hbare]
    exact fun h => not_mem_colon_of_blank h (by simp)
  unfold bare at hbare hblank
  simp only [readRow, if_neg hblank]
  simp only [hbare, htake, hdrop]
  cases readCode? (trimmed bs) <;> simp

theorem readRow_eq_blank_iff {line : List Char} : readRow line = .blank ↔ Blank (bare line) := by
  rw [← blank_iff_all]
  unfold readRow bare
  grind

theorem readRow_eq_entry_iff {line : List Char} {name : String} {code : UInt8} :
    readRow line = .entry name code ↔ Binds name code (bare line) := by
  by_cases hcolon : ':' ∈ bare line
  · obtain ⟨as, bs, hbare, has⟩ := List.eq_append_cons_of_mem hcolon
    obtain ⟨b₁, b₂, -, -, hfront⟩ := exists_trimmed as
    rw [readRow_of_colon hbare has, hbare, binds_iff has]
    constructor
    · intro h
      split at h
      · cases h
      rename_i hname
      cases hcode : readCode? (trimmed bs) with
      | none => simp [hcode] at h
      | some c =>
        simp [hcode] at h
        obtain ⟨rfl, rfl⟩ := h
        simp at hname
        refine ⟨⟨?_, ?_, ?_⟩, String.toList_ofList.symm, readCode?_eq_some_iff.1 hcode⟩
        · simpa using hname.1
        · simpa using hname.2
        · rw [hfront] at has
          simp at has ⊢
          tauto
    · rintro ⟨hname, htrim, hcode⟩
      have hany : name.toList.any isSpace = false := by
        simpa using hname.solid
      rw [htrim, readCode?_eq_some_iff.2 hcode]
      simp [hname.nonempty, hany]
  · constructor
    · intro h
      have hdrop : (bare line).dropWhile (· != ':') = [] := by
        rw [List.dropWhile_eq_nil_iff]
        exact fun c hc => bne_iff_ne.2 (ne_of_mem_of_not_mem hc hcolon)
      unfold bare at hdrop
      simp only [readRow, hdrop] at h
      split at h <;> cases h
    · exact fun h => absurd h.colon_mem hcolon

theorem readRow_eq_malformed_iff {line : List Char} :
    readRow line = .malformed ↔ Faulty (bare line) := by
  unfold Faulty
  rw [← readRow_eq_blank_iff]
  simp only [← readRow_eq_entry_iff]
  cases readRow line <;> simp

theorem Binds.unique {name name' : String} {code code' : UInt8} {line : List Char}
    (h : Binds name code (bare line)) (h' : Binds name' code' (bare line)) :
    name = name' ∧ code = code' := by
  rw [← readRow_eq_entry_iff] at h h'
  rw [h] at h'
  simpa using h'

/-! ## Lines -/

theorem binds_append_blank {name : String} {code : UInt8} {b : List Char} (hb : Blank b)
    (cs : List Char) : Binds name code (cs ++ b) ↔ Binds name code cs := by
  by_cases hcolon : ':' ∈ cs
  · obtain ⟨as, bs, rfl, has⟩ := List.eq_append_cons_of_mem hcolon
    rw [List.append_assoc, List.cons_append, binds_iff has, binds_iff has, trimmed_append_blank hb]
  · have hcolon' : ':' ∉ cs ++ b := by
      simp [hcolon, not_mem_colon_of_blank hb]
    exact ⟨fun h => absurd h.colon_mem hcolon', fun h => absurd h.colon_mem hcolon⟩

theorem bare_append_of_not_mem {as : List Char} (has : '#' ∉ as) (bs : List Char) :
    bare (as ++ bs) = as ++ bare bs :=
  List.takeWhile_append_of_pos fun _ ha => bne_iff_ne.2 (ne_of_mem_of_not_mem ha has)

theorem bare_append_of_mem {as : List Char} (has : '#' ∈ as) (bs : List Char) :
    bare (as ++ bs) = bare as := by
  obtain ⟨us, vs, rfl, hus⟩ := List.eq_append_cons_of_mem has
  rw [List.append_assoc, bare_append_of_not_mem hus, bare_append_of_not_mem hus]
  rfl

theorem bare_eq_self {line : List Char} (h : '#' ∉ line) : bare line = line := by
  simpa [bare] using bare_append_of_not_mem h []

theorem readRow_congr {line line' : List Char} (hblank : Blank (bare line) ↔ Blank (bare line'))
    (hbinds : ∀ name code, Binds name code (bare line) ↔ Binds name code (bare line')) :
    readRow line = readRow line' := by
  cases h : readRow line' with
  | blank => exact readRow_eq_blank_iff.2 (hblank.2 (readRow_eq_blank_iff.1 h))
  | entry name code =>
    exact readRow_eq_entry_iff.2 ((hbinds name code).2 (readRow_eq_entry_iff.1 h))
  | malformed =>
    obtain ⟨hnotBlank, hnotBinds⟩ := readRow_eq_malformed_iff.1 h
    refine readRow_eq_malformed_iff.2 ⟨mt hblank.1 hnotBlank, fun name code => ?_⟩
    exact mt (hbinds name code).1 (hnotBinds name code)

theorem readRow_append_blank {b : List Char} (hb : Blank b) (line : List Char) :
    readRow (line ++ b) = readRow line := by
  have hhash : '#' ∉ b := fun hmem => absurd (hb '#' hmem) (by decide)
  by_cases hline : '#' ∈ line
  · have hbare := bare_append_of_mem hline b
    apply readRow_congr <;> simp [hbare]
  · apply readRow_congr <;> rw [bare_append_of_not_mem hline, bare_eq_self hline, bare_eq_self hhash]
    · exact ⟨fun h c hc => h c (List.mem_append_left _ hc), fun h => h.append hb⟩
    · exact fun name code => binds_append_blank hb line

theorem readRow_withoutReturn (line : List Char) : readRow (withoutReturn line) = readRow line := by
  unfold withoutReturn
  split
  · rename_i hlast
    obtain ⟨line, rfl⟩ := List.getLast?_eq_some_iff.1 hlast
    rw [List.dropLast_concat, readRow_append_blank (by decide)]
  · rfl

theorem readRows_append (n : Nat) (m : KeyMap) (as bs : List (List Char)) :
    readRows n m (as ++ bs) = readRows n m as >>= fun m => readRows (n + as.length) m bs := by
  induction as generalizing n m with
  | nil => rfl
  | cons a as ih =>
    have hlength : n + (a :: as).length = n + 1 + as.length := by
      simp
      omega
    simp only [List.cons_append, readRows, hlength]
    split
    · exact ih ..
    · exact ih ..
    · rfl

theorem readRows_congr {as bs : List (List Char)} (h : as.map readRow = bs.map readRow) (n : Nat)
    (m : KeyMap) : readRows n m as = readRows n m bs := by
  induction as generalizing n m bs with
  | nil =>
    cases bs with
    | nil => rfl
    | cons => cases h
  | cons a as ih =>
    cases bs with
    | nil => cases h
    | cons b bs =>
      rw [List.map_cons, List.map_cons, List.cons.injEq] at h
      simp only [readRows, h.1, ih h.2]

/-- Reading goes by lines. The carriage returns and the empty piece behind the last newline make no
difference. -/
theorem read_eq (text : String) :
    read text = readRows 1 {} ((Text.lines text).map String.toList) := by
  obtain ⟨ps, last, hps⟩ : ∃ ps last, pieces text = ps ++ [last] :=
    (List.eq_nil_or_concat' _).resolve_left (List.splitOn_ne_nil _ _)
  have hlines : (Text.lines text).map String.toList =
      ps.map withoutReturn ++ if last.isEmpty then [] else [last] := by
    unfold Text.lines
    rw [hps]
    simp
    split <;> simp
  have hreturns : (ps.map withoutReturn).map readRow = ps.map readRow := by
    simp [readRow_withoutReturn]
  unfold read
  rw [hlines, hps, readRows_append, readRows_append, readRows_congr hreturns, List.length_map]
  split
  · rename_i hlast
    rw [List.isEmpty_iff.1 hlast]
    rfl
  · rfl

/-! ## The first faulty line -/

theorem exists_ok_iff {lines : List (List Char)} {n : Nat} {m : KeyMap} :
    (∃ m', readRows n m lines = .ok m') ↔ ∀ line ∈ lines, ¬ Faulty (bare line) := by
  induction lines generalizing n m with
  | nil => simp [readRows]
  | cons line lines ih =>
    rw [List.forall_mem_cons, ← readRow_eq_malformed_iff, readRows]
    cases readRow line <;> simp [ih]

theorem readRows_of_faulty {before : List (List Char)} {line : List Char}
    (hbefore : ∀ l ∈ before, ¬ Faulty (bare l)) (hline : Faulty (bare line))
    (after : List (List Char)) (n : Nat) (m : KeyMap) :
    readRows n m (before ++ line :: after) =
      .error (Cause.malformedBinding.inLine (n + before.length)) := by
  obtain ⟨m', hok⟩ : ∃ m', readRows n m before = .ok m' := exists_ok_iff.2 hbefore
  rw [readRows_append, hok]
  change readRows _ m' (line :: after) = _
  rw [readRows, readRow_eq_malformed_iff.2 hline]

/-! ## The order of the names -/

def Ordered (m : KeyMap) : Prop :=
  m.entries.Pairwise (·.1 < ·.1)

theorem mem_insertEntry {name : String} {code : UInt8} {es : List (String × UInt8)}
    {e : String × UInt8} (h : e ∈ insertEntry name code es) : e = (name, code) ∨ e ∈ es := by
  induction es with
  | nil => simpa [insertEntry] using h
  | cons e' es ih => grind [insertEntry]

theorem pairwise_insertEntry {es : List (String × UInt8)} (h : es.Pairwise (·.1 < ·.1))
    (name : String) (code : UInt8) : (insertEntry name code es).Pairwise (·.1 < ·.1) := by
  induction es with
  | nil => simp [insertEntry]
  | cons e es ih =>
    obtain ⟨he, hes⟩ := List.pairwise_cons.1 h
    unfold insertEntry
    split
    · rename_i hlt
      refine List.pairwise_cons.2 ⟨fun x hx => ?_, h⟩
      rcases List.mem_cons.1 hx with rfl | hx
      · exact hlt
      · exact hlt.trans (he x hx)
    split
    · rename_i heq
      exact List.pairwise_cons.2 ⟨fun x hx => heq ▸ he x hx, hes⟩
    · rename_i hlt hne
      refine List.pairwise_cons.2 ⟨fun x hx => ?_, ih hes⟩
      rcases mem_insertEntry hx with rfl | hx
      · exact lt_of_le_of_ne (not_lt.1 hlt) (Ne.symm hne)
      · exact he x hx

theorem Ordered.insert {m : KeyMap} (h : m.Ordered) (name : String) (code : UInt8) :
    (m.insert name code).Ordered :=
  pairwise_insertEntry h name code

theorem Ordered.mem_entries_iff {m : KeyMap} (h : m.Ordered) {name : String} {code : UInt8} :
    (name, code) ∈ m.entries ↔ m.code? name = some code := by
  unfold code?
  rw [List.lookup_eq_some_iff]
  constructor
  · intro hmem
    obtain ⟨l₁, l₂, hsplit⟩ := List.append_of_mem hmem
    refine ⟨l₁, l₂, hsplit, fun e he => ?_⟩
    unfold Ordered at h
    rw [hsplit, List.pairwise_append] at h
    exact bne_iff_ne.2 (h.2.2 e he _ List.mem_cons_self).ne'
  · rintro ⟨l₁, l₂, hsplit, -⟩
    simp [hsplit]

theorem Ordered.mem_names_iff {m : KeyMap} (h : m.Ordered) {name : String} {code : UInt8} :
    name ∈ m.names code ↔ m.code? name = some code := by
  rw [← h.mem_entries_iff]
  simp [names]

theorem Ordered.pairwise_names {m : KeyMap} (h : m.Ordered) (code : UInt8) :
    (m.names code).Pairwise (· < ·) :=
  List.pairwise_map.2 (h.filter _)

theorem Ordered.ext {m m' : KeyMap} (h : m.Ordered) (h' : m'.Ordered)
    (hcodes : ∀ name code, m.code? name = some code ↔ m'.code? name = some code) : m = m' := by
  have hnodup : ∀ {m : KeyMap}, m.Ordered → m.entries.Nodup :=
    fun h => h.imp fun hlt heq => hlt.ne (congrArg Prod.fst heq)
  have hperm : m.entries.Perm m'.entries := by
    rw [List.perm_ext_iff_of_nodup (hnodup h) (hnodup h')]
    rintro ⟨name, code⟩
    rw [h.mem_entries_iff, h'.mem_entries_iff, hcodes]
  have heq := hperm.eq_of_pairwise (fun _ _ _ _ hlt hgt => absurd hgt hlt.asymm) h h'
  cases m
  cases m'
  cases heq
  rfl

/-! ## The last row for a name -/

/-- The last row for the name gives it the code. -/
def LastBinds (name : String) (code : UInt8) (rows : List (List Char)) : Prop :=
  ∃ before row after, rows = before ++ row :: after ∧ Binds name code row ∧
    ∀ later ∈ after, ∀ code, ¬ Binds name code later

theorem lastBinds_concat {name : String} {code : UInt8} {rows : List (List Char)}
    {row : List Char} : LastBinds name code (rows ++ [row]) ↔
      Binds name code row ∨ LastBinds name code rows ∧ ∀ code, ¬ Binds name code row := by
  constructor
  · rintro ⟨before, row', after, hsplit, hrow, hafter⟩
    rcases List.eq_nil_or_concat' after with rfl | ⟨after, last, rfl⟩
    · obtain ⟨-, hlast⟩ := List.append_inj' hsplit rfl
      cases hlast
      exact .inl hrow
    · rw [← List.cons_append, ← List.append_assoc] at hsplit
      obtain ⟨rfl, hlast⟩ := List.append_inj' hsplit rfl
      cases hlast
      refine .inr ⟨⟨before, row', after, rfl, hrow, fun l hl => ?_⟩, ?_⟩
      · exact hafter l (by simp [hl])
      · exact hafter row (by simp)
  · rintro (hrow | ⟨⟨before, row', after, rfl, hrow, hafter⟩, hlast⟩)
    · exact ⟨rows, row, [], rfl, hrow, nofun⟩
    · refine ⟨before, row', after ++ [row], by simp, hrow, fun l hl => ?_⟩
      rcases List.mem_append.1 hl with hl | hl
      · exact hafter l hl
      · exact List.mem_singleton.1 hl ▸ hlast

theorem LastBinds.exists_row {name : String} {code : UInt8} {rows : List (List Char)}
    (h : LastBinds name code rows) : ∃ row ∈ rows, Binds name code row := by
  obtain ⟨before, row, after, rfl, hrow, -⟩ := h
  exact ⟨row, by simp, hrow⟩

theorem exists_lastBinds {name : String} {rows : List (List Char)}
    (h : ∃ row ∈ rows, ∃ code, Binds name code row) : ∃ code, LastBinds name code rows := by
  induction rows using List.reverseRecOn with
  | nil => simp at h
  | append_singleton rows row ih =>
    by_cases hrow : ∃ code, Binds name code row
    · obtain ⟨code, hrow⟩ := hrow
      exact ⟨code, lastBinds_concat.2 (.inl hrow)⟩
    · obtain ⟨row', hmem, hbinds⟩ := h
      rcases List.mem_append.1 hmem with hmem | hmem
      · obtain ⟨code, hlast⟩ := ih ⟨row', hmem, hbinds⟩
        exact ⟨code, lastBinds_concat.2 (.inr ⟨hlast, not_exists.1 hrow⟩)⟩
      · exact absurd (List.mem_singleton.1 hmem ▸ hbinds) hrow

theorem readRows_tracks {lines : List (List Char)} {n : Nat} {m : KeyMap}
    (h : readRows n {} lines = .ok m) :
    m.Ordered ∧ ∀ name code, m.code? name = some code ↔ LastBinds name code (lines.map bare) := by
  induction lines using List.reverseRecOn generalizing m with
  | nil =>
    cases h
    refine ⟨List.Pairwise.nil, fun name code => ⟨nofun, fun h => ?_⟩⟩
    obtain ⟨row, hmem, -⟩ := h.exists_row
    cases hmem
  | append_singleton lines line ih =>
    rw [readRows_append] at h
    cases hlines : readRows n {} lines with
    | error => rw [hlines] at h; cases h
    | ok m₀ =>
      rw [hlines] at h
      change readRows _ m₀ [line] = .ok m at h
      obtain ⟨hordered, hcodes⟩ := ih hlines
      rw [List.map_append, List.map_singleton]
      unfold readRows at h
      simp only [lastBinds_concat, ← hcodes, ← readRow_eq_entry_iff]
      split at h
      · rename_i hrow
        cases h
        exact ⟨hordered, by simp [hrow]⟩
      · rename_i name' code' hrow
        cases h
        refine ⟨hordered.insert name' code', fun name code => ?_⟩
        rw [code?_insert, hrow]
        grind
      · cases h

theorem code?_eq_none_iff {m : KeyMap} {rows : List (List Char)}
    (h : ∀ name code, m.code? name = some code ↔ LastBinds name code rows) (name : String) :
    m.code? name = none ↔ ∀ row ∈ rows, ∀ code, ¬ Binds name code row := by
  constructor
  · intro hnone row hmem code hrow
    obtain ⟨code', hlast⟩ := exists_lastBinds ⟨row, hmem, code, hrow⟩
    rw [(h name code').2 hlast] at hnone
    cases hnone
  · intro hrows
    cases hcode : m.code? name with
    | none => rfl
    | some code =>
      obtain ⟨row, hmem, hrow⟩ := ((h name code).1 hcode).exists_row
      exact absurd hrow (hrows row hmem code)

/-! ## Maps that are written down -/

/-- White space, a comment or both. -/
structure IsRemark (line : List Char) : Prop where
  blank : Blank (bare line)
  oneLine : '\n' ∉ line

/-- One line for each row, with a remark at its end if need be, and lines of remarks among them. -/
inductive Writes : List (String × UInt8) → List (List Char) → Prop
  | nil : Writes [] []
  | remark {rows : List (String × UInt8)} {lines : List (List Char)} (line : List Char)
      (hline : IsRemark line) (h : Writes rows lines) : Writes rows (line :: lines)
  | row {rows : List (String × UInt8)} {lines : List (List Char)} (name : String) (code : UInt8)
      (tail : List Char) (htail : IsRemark tail) (h : Writes rows lines) :
      Writes ((name, code) :: rows)
        ((name.toList ++ " : ".toList ++ (toString code).toList ++ tail) :: lines)

/-- The names that a row can be written for. -/
structure Writable (name : String) : Prop extends IsName name where
  noHash : '#' ∉ name.toList

def written (lines : List (List Char)) : String :=
  String.ofList (['\n'].intercalate lines)

theorem isDigits_toString (code : UInt8) : IsDigits code (toString code).toList := by
  have hdigits : (toString code).toList = Nat.toDigits 10 code.toNat := by
    change (toString code.toNat).toList = _
    rw [Nat.toString_eq_ofList_toDigits, String.toList_ofList]
  rw [hdigits]
  exact ⟨Nat.toDigits_ne_nil, fun d hd => Nat.isDigit_of_mem_toDigits (by decide) (by decide) hd,
    decimalValue_toDigits _⟩

theorem binds_row {name : String} (hname : Writable name) (code : UInt8) {tail : List Char}
    (htail : IsRemark tail) :
    Binds name code (bare (name.toList ++ " : ".toList ++ (toString code).toList ++ tail)) := by
  have hdigits := isDigits_toString code
  have hhash : '#' ∉ name.toList ++ " : ".toList ++ (toString code).toList := by
    have hcode : '#' ∉ (toString code).toList :=
      fun hmem => absurd (hdigits.digits '#' hmem) (by decide)
    simp [hname.noHash, hcode]
  have hspace : Blank [' '] := by decide
  rw [bare_append_of_not_mem hhash]
  have h := Binds.intro blank_nil hspace hspace htail.blank hname.toIsName (.plain hdigits)
  simpa using h

theorem Writes.binds_iff {rows : List (String × UInt8)} {lines : List (List Char)}
    (h : Writes rows lines) (hrows : ∀ row ∈ rows, Writable row.1) (name : String) (code : UInt8) :
    (∃ row ∈ lines.map bare, Binds name code row) ↔ (name, code) ∈ rows := by
  induction h with
  | nil => simp
  | remark line hline h ih =>
    have hnot : ¬ Binds name code (bare line) := fun hbinds => hbinds.not_blank hline.blank
    rw [List.map_cons, List.exists_mem_cons_iff, ih hrows]
    simp [hnot]
  | row name' code' tail htail h ih =>
    obtain ⟨hname, hrows⟩ := List.forall_mem_cons.1 hrows
    have hbinds := binds_row hname code' htail
    rw [List.map_cons, List.exists_mem_cons_iff, ih hrows, List.mem_cons]
    refine or_congr_left ⟨fun h => ?_, fun h => ?_⟩
    · obtain ⟨rfl, rfl⟩ := h.unique hbinds
      rfl
    · cases h
      exact hbinds

theorem Writes.not_faulty {rows : List (String × UInt8)} {lines : List (List Char)}
    (h : Writes rows lines) (hrows : ∀ row ∈ rows, Writable row.1) :
    ∀ line ∈ lines, ¬ Faulty (bare line) := by
  induction h with
  | nil => nofun
  | remark line hline h ih => exact List.forall_mem_cons.2 ⟨fun hf => hf.1 hline.blank, ih hrows⟩
  | row name code tail htail h ih =>
    obtain ⟨hname, hrows⟩ := List.forall_mem_cons.1 hrows
    exact List.forall_mem_cons.2 ⟨fun hf => hf.2 _ _ (binds_row hname code htail), ih hrows⟩

theorem Writes.oneLine {rows : List (String × UInt8)} {lines : List (List Char)}
    (h : Writes rows lines) (hrows : ∀ row ∈ rows, Writable row.1) : ∀ line ∈ lines, '\n' ∉ line := by
  induction h with
  | nil => nofun
  | remark line hline h ih => exact List.forall_mem_cons.2 ⟨hline.oneLine, ih hrows⟩
  | row name code tail htail h ih =>
    obtain ⟨hname, hrows⟩ := List.forall_mem_cons.1 hrows
    refine List.forall_mem_cons.2 ⟨?_, ih hrows⟩
    have hfront : '\n' ∉ name.toList := fun hmem => absurd (hname.solid _ hmem) (by decide)
    have hcode : '\n' ∉ (toString code).toList :=
      fun hmem => absurd ((isDigits_toString code).digits _ hmem) (by decide)
    simp [hfront, hcode, htail.oneLine]

theorem read_written {lines : List (List Char)} (h : ∀ line ∈ lines, '\n' ∉ line) :
    read (written lines) = readRows 1 {} lines := by
  unfold read written pieces
  rw [String.toList_ofList]
  cases lines with
  | nil => rfl
  | cons line lines => rw [List.splitOn_intercalate '\n' h (by simp)]

theorem Writes.read_eq {m : KeyMap} (hm : m.Ordered) {rows : List (String × UInt8)}
    (hperm : rows.Perm m.entries) (hrows : ∀ row ∈ rows, Writable row.1) {lines : List (List Char)}
    (h : Writes rows lines) : read (written lines) = .ok m := by
  rw [read_written (h.oneLine hrows)]
  obtain ⟨m', hread⟩ : ∃ m', readRows 1 {} lines = .ok m' := exists_ok_iff.2 (h.not_faulty hrows)
  obtain ⟨hordered, hlast⟩ := readRows_tracks hread
  rw [hread]
  refine congrArg _ (hordered.ext hm fun name code => ?_)
  -- a row of the file is an entry of the map
  have hentry : ∀ code, (∃ row ∈ lines.map bare, Binds name code row) ↔ m.code? name = some code := by
    intro code
    rw [h.binds_iff hrows, hperm.mem_iff, hm.mem_entries_iff]
  constructor
  · intro hcode
    exact (hentry code).1 ((hlast name code).1 hcode).exists_row
  · intro hcode
    obtain ⟨row, hmem, hrow⟩ := (hentry code).2 hcode
    obtain ⟨code', hcode'⟩ := exists_lastBinds ⟨row, hmem, code, hrow⟩
    have heq : some code' = some code := ((hentry code').1 hcode'.exists_row).symm.trans hcode
    cases heq
    exact (hlast name code).2 hcode'

/-- The lines of a text without their comments. -/
def bareLines (text : String) : List (List Char) :=
  (Text.lines text).map fun line => bare line.toList

/-- Files of key bindings. Reading fails at the first faulty line and only there. Otherwise the last
row for a name counts, and `names` lists the names of a code in order. A map that is written down in
rows is read back, however the rows are put and whatever comments there are. -/
theorem read_exact (text : String) :
    ((∃ e, read text = .error e) ↔ ∃ line ∈ bareLines text, Faulty line) ∧
    (∀ before line after, bareLines text = before ++ line :: after →
      (∀ earlier ∈ before, ¬ Faulty earlier) → Faulty line →
      read text = .error (Cause.malformedBinding.inLine (before.length + 1))) ∧
    (∀ m, read text = .ok m →
      (∀ name code, m.code? name = some code ↔ LastBinds name code (bareLines text)) ∧
      (∀ name, m.code? name = none ↔ ∀ line ∈ bareLines text, ∀ code, ¬ Binds name code line) ∧
      ∀ code, (m.names code).Pairwise (· < ·) ∧
        ∀ name, name ∈ m.names code ↔ m.code? name = some code) ∧
    ∀ (m : KeyMap) (rows : List (String × UInt8)) (lines : List (List Char)), m.Ordered →
      rows.Perm m.entries → (∀ row ∈ rows, Writable row.1) → Writes rows lines →
      text = written lines → read text = .ok m := by
  have hread := read_eq text
  have hbare : bareLines text = ((Text.lines text).map String.toList).map bare := by
    simp [bareLines]
  generalize (Text.lines text).map String.toList = lines at hread hbare
  rw [hbare]
  have hfirst : ∀ before line after, lines.map bare = before ++ line :: after →
      (∀ earlier ∈ before, ¬ Faulty earlier) → Faulty line →
      read text = .error (Cause.malformedBinding.inLine (before.length + 1)) := by
    intro before line after hsplit hbefore hline
    obtain ⟨before, rest, rfl, rfl, hrest⟩ := List.map_eq_append_iff.1 hsplit
    obtain ⟨line, after, rfl, rfl, rfl⟩ := List.map_eq_cons_iff.1 hrest
    rw [hread, readRows_of_faulty (by simpa using hbefore) hline, List.length_map, Nat.add_comm]
  have hfails : (∃ e, read text = .error e) ↔ ∃ line ∈ lines.map bare, Faulty line := by
    have hok : (∃ m, read text = .ok m) ↔ ∀ line ∈ lines, ¬ Faulty (bare line) :=
      hread ▸ exists_ok_iff
    cases h : read text with
    | ok m => simpa [h] using hok
    | error e => simpa [h] using hok
  refine ⟨hfails, hfirst, ?_, ?_⟩
  · intro m hm
    obtain ⟨hordered, hlast⟩ := readRows_tracks (hread.symm.trans hm)
    exact ⟨hlast, code?_eq_none_iff hlast, fun code =>
      ⟨hordered.pairwise_names code, fun name => hordered.mem_names_iff⟩⟩
  · rintro m rows lines hm hperm hrows hwrites rfl
    exact hwrites.read_eq hm hperm hrows

theorem read_exact_arrows :
    read "# arrows\nK_UP : 4\n\nK_DOWN : 1  # low" = .ok ⟨[("K_DOWN", 1), ("K_UP", 4)]⟩ ∧
      read "K_DOWN : 1\nK_UP 4\n" = .error (Cause.malformedBinding.inLine 2) := by
  constructor
  · obtain ⟨-, -, -, hwritten⟩ := read_exact "# arrows\nK_UP : 4\n\nK_DOWN : 1  # low"
    refine hwritten _ [("K_UP", 4), ("K_DOWN", 1)] _ ?_ (List.Perm.swap ..) ?_
      (.remark "# arrows".toList ⟨?_, ?_⟩ <| .row "K_UP" 4 [] ⟨?_, ?_⟩ <|
        .remark [] ⟨?_, ?_⟩ <| .row "K_DOWN" 1 "  # low".toList ⟨?_, ?_⟩ .nil) rfl
    · exact List.pairwise_pair.2 (by decide)
    · intro row hrow
      simp at hrow
      rcases hrow with rfl | rfl
      · exact ⟨⟨by decide, by simp [isSpace], by decide⟩, by decide⟩
      · exact ⟨⟨by decide, by simp [isSpace], by decide⟩, by decide⟩
    all_goals decide
  · obtain ⟨-, hfaulty, -⟩ := read_exact "K_DOWN : 1\nK_UP 4\n"
    have hdown : Binds "K_DOWN" 1 (bare "K_DOWN : 1".toList) := readRow_eq_entry_iff.1 rfl
    refine hfaulty ["K_DOWN : 1".toList] "K_UP 4".toList [] rfl ?_ ⟨?_, ?_⟩
    · intro earlier hmem
      cases List.mem_singleton.1 hmem
      exact fun h => h.2 _ _ hdown
    · decide
    · exact fun name code h => absurd h.colon_mem (by decide)

end KeyMap

end Handheld
