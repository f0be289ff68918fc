import FortyTwo.Cpp.ExchangeInputs

/-!
What is reported for the lines of a file: when a line leaves the loop, and which rate a line with
a date and an amount is given.
-/

namespace FortyTwo.Cpp.BitcoinExchange

open Foundation

section Search

variable {δ : Type} {database : SortedMap Str δ} {date : Str}

theorem lookUp_of_find {rate : δ} (h : database.find date = some rate) :
    lookUp database date = .ok (some rate) := by
  rw [lookUp, h]

theorem lookUp_refused (hnone : database.find date = none) (h : checkDate date = .ok false) :
    lookUp database date = .ok none := by
  rw [lookUp, hnone, h]

theorem lookUp_thrown {fault : Fault} (hnone : database.find date = none)
    (h : checkDate date = .error fault) : lookUp database date = .error (.thrown fault) := by
  rw [lookUp, hnone, h]

theorem lookUp_returned (h : checkDate date = .ok true)
    (hlast : ∀ entry ∈ database.entries, entry.1 < date) :
    lookUp database date = .error (.returned (noData date)) := by
  have hnone : database.find date = none :=
    SortedMap.find_eq_none_iff.mpr fun entry hentry => ne_of_lt (hlast entry hentry)
  rw [lookUp, hnone, h]
  exact if_pos (SortedMap.lowerBound_eq_length_iff.mpr hlast)

/-- A date in front of all is given the first rate. -/
theorem lookUp_first (h : checkDate date = .ok true) (hne : database.entries ≠ [])
    (hfirst : ∀ entry ∈ database.entries, date < entry.1) :
    ∃ rate, lookUp database date = .ok (some rate) := by
  have hnone : database.find date = none :=
    SortedMap.find_eq_none_iff.mpr fun entry hentry => ne_of_gt (hfirst entry hentry)
  have hzero : database.lowerBound date = 0 :=
    SortedMap.lowerBound_eq_zero_iff.mpr fun entry hentry => le_of_lt (hfirst entry hentry)
  obtain ⟨entry, rest, hentries⟩ := List.exists_cons_of_ne_nil hne
  refine ⟨entry.2, ?_⟩
  rw [lookUp, hnone, h]
  dsimp only
  rw [hzero, hentries]
  rfl

/-- A date between two is given the rate of the one before. -/
theorem lookUp_between (h : checkDate date = .ok true) (hnone : database.find date = none)
    (hbefore : ∃ entry ∈ database.entries, entry.1 ≤ date)
    (hbehind : ∃ entry ∈ database.entries, date ≤ entry.1) :
    ∃ entry, database.IsFloor date entry ∧ lookUp database date = .ok (some entry.2) := by
  have hnotZero : database.lowerBound date ≠ 0 := by
    intro hzero
    obtain ⟨entry, hentry, hle⟩ := hbefore
    exact SortedMap.find_eq_none_iff.mp hnone entry hentry
      (le_antisymm hle (SortedMap.lowerBound_eq_zero_iff.mp hzero entry hentry))
  have hnotEnd : database.lowerBound date ≠ database.entries.length := by
    intro hend
    obtain ⟨entry, hentry, hle⟩ := hbehind
    exact absurd hle (not_le.mpr (SortedMap.lowerBound_eq_length_iff.mp hend entry hentry))
  obtain ⟨entry, hentry, hfloor⟩ := SortedMap.isFloor_before hnone hnotZero
  refine ⟨entry, hfloor, ?_⟩
  rw [lookUp, hnone, h]
  dsimp only
  rw [if_neg hnotEnd, if_pos hnotZero, hentry]

theorem lookUp_covered (h : checkDate date = .ok true)
    (hbefore : ∃ entry ∈ database.entries, entry.1 ≤ date)
    (hbehind : ∃ entry ∈ database.entries, date ≤ entry.1) :
    ∃ entry, database.IsFloor date entry ∧ lookUp database date = .ok (some entry.2) := by
  cases hfind : database.find date with
  | some rate => exact ⟨(date, rate), SortedMap.isFloor_of_find hfind, lookUp_of_find hfind⟩
  | none => exact lookUp_between h hfind hbefore hbehind

/-- The date passes the tests and is greater than every key. -/
def AfterLast (database : SortedMap Str δ) (date : Str) : Prop :=
  checkDate date = .ok true ∧ ∀ entry ∈ database.entries, entry.1 < date

/-- The date is no key, and its second dash is too far behind for an `int`. -/
def Unreadable (database : SortedMap Str δ) (date : Str) : Prop :=
  database.find date = none ∧ ∃ fault, checkDate date = .error fault

theorem exists_lookUp (hlast : ¬AfterLast database date) (hread : ¬Unreadable database date) :
    ∃ rate, lookUp database date = .ok rate := by
  cases hfind : database.find date with
  | some rate => exact ⟨_, lookUp_of_find hfind⟩
  | none =>
      cases hcheck : checkDate date with
      | error fault => exact absurd ⟨hfind, fault, hcheck⟩ hread
      | ok passed =>
          cases passed with
          | false => exact ⟨none, lookUp_refused hfind hcheck⟩
          | true =>
              have hsome : ∃ entry ∈ database.entries, date ≤ entry.1 := by
                by_contra hnone
                push Not at hnone
                exact hlast ⟨hcheck, hnone⟩
              by_cases hfirst : ∀ entry ∈ database.entries, date < entry.1
              · obtain ⟨entry, hentry, -⟩ := hsome
                obtain ⟨rate, hrate⟩ := lookUp_first hcheck (List.ne_nil_of_mem hentry) hfirst
                exact ⟨_, hrate⟩
              · push Not at hfirst
                obtain ⟨entry, -, hentry⟩ := lookUp_between hcheck hfind hfirst hsome
                exact ⟨_, hentry⟩

end Search

section Lines

variable {δ : Type} {ops : DoubleOps δ} {database : SortedMap Str δ} {tempString date : Str}

/-- The code takes that date from the line. -/
def HasDate (tempString date : Str) : Prop :=
  ∃ delimPos, find ['|'] tempString = some delimPos ∧ trim (tempString.take delimPos) = date

/-- The loop is left at the line, with a report. -/
def LeavesLoop (database : SortedMap Str δ) (tempString : Str) : Prop :=
  ∃ date, HasDate tempString date ∧ AfterLast database date

/-- Something is thrown at the line. -/
def Fails (database : SortedMap Str δ) (tempString : Str) : Prop :=
  ∃ date, HasDate tempString date ∧ Unreadable database date

/-- Nothing is thrown at a line that is shorter than what an `int` counts. -/
theorem not_fails_of_length_lt (h : tempString.length < 2 ^ 31) : ¬Fails database tempString := by
  rintro ⟨date, ⟨delimPos, -, rfl⟩, -, fault, hfault⟩
  have htrim : (trim (tempString.take delimPos)).length ≤ tempString.length :=
    ((List.dropWhile_sublist _).length_le.trans
      (List.rdropWhile_prefix _ _).length_le).trans (List.length_take_le' _ _)
  obtain ⟨passed, hpassed⟩ := exists_checkDate (htrim.trans_lt h)
  rw [hpassed] at hfault
  cases hfault

private theorem reportLine_of_error (hdate : HasDate tempString date) {leave : Leave}
    (h : lookUp database date = .error leave) :
    reportLine ops database tempString = .error leave := by
  obtain ⟨delimPos, hbar, rfl⟩ := hdate
  rw [reportLine, hbar]
  exact congrArg (· >>= _) h

theorem reportLine_leaves (ops : DoubleOps δ) (h : LeavesLoop database tempString) :
    ∃ report, reportLine ops database tempString = .error (.returned report) := by
  obtain ⟨date, hdate, hcheck, hlast⟩ := h
  exact ⟨_, reportLine_of_error hdate (lookUp_returned hcheck hlast)⟩

theorem reportLine_fails (ops : DoubleOps δ) (h : Fails database tempString) :
    ∃ fault, reportLine ops database tempString = .error (.thrown fault) := by
  obtain ⟨date, hdate, hnone, fault, hfault⟩ := h
  exact ⟨fault, reportLine_of_error hdate (lookUp_thrown hnone hfault)⟩

theorem reportLine_stays (ops : DoubleOps δ) (hleaves : ¬LeavesLoop database tempString)
    (hfails : ¬Fails database tempString) :
    ∃ report, reportLine ops database tempString = .ok report := by
  rw [reportLine]
  cases hbar : find ['|'] tempString with
  | none => exact ⟨_, rfl⟩
  | some delimPos =>
      have hdate : HasDate tempString (trim (tempString.take delimPos)) := ⟨delimPos, hbar, rfl⟩
      obtain ⟨rate, hrate⟩ := exists_lookUp (fun hlast => hleaves ⟨_, hdate, hlast⟩)
        (fun hread => hfails ⟨_, hdate, hread⟩)
      dsimp only
      rw [hrate]
      cases rate with
      | none => exact ⟨_, rfl⟩
      | some rate => exact ⟨_, rfl⟩

/-- What is reported for a well-formed line whose date is given a rate. -/
theorem reportLine_input (input : Input ops) {rate : δ}
    (h : lookUp database input.date.text = .ok (some rate)) :
    reportLine ops database input.line = .ok (input.result rate) := by
  rw [reportLine, find_bar]
  dsimp only
  rw [trim_take, h]
  exact congrArg Except.ok (reportAmount_input input rate)

theorem hasDate_input (input : Input ops) : HasDate input.line input.date.text :=
  ⟨_, find_bar input, trim_take input⟩

end Lines

section Files

variable {δ : Type} {ops : DoubleOps δ} {database : SortedMap Str δ} {tempString : Str}
  {lines rest : List Str}

/-- A line by itself is reported, unless something is thrown. -/
theorem exists_alone (ops : DoubleOps δ) (hfails : ¬Fails database tempString) :
    ∃ report, reportLines ops database [tempString] = ([report], none) := by
  by_cases hleaves : LeavesLoop database tempString
  · obtain ⟨report, hreport⟩ := reportLine_leaves ops hleaves
    refine ⟨report, ?_⟩
    rw [reportLines, hreport]
  · obtain ⟨report, hreport⟩ := reportLine_stays ops hleaves hfails
    refine ⟨report, ?_⟩
    rw [reportLines, hreport]
    rfl

theorem alone_eq_none_iff : (reportLines ops database [tempString]).2 = none ↔
    ¬Fails database tempString := by
  constructor
  · intro h hfails
    obtain ⟨fault, hfault⟩ := reportLine_fails ops hfails
    rw [reportLines, hfault] at h
    cases h
  · intro hfails
    obtain ⟨report, hreport⟩ := exists_alone ops hfails
    rw [hreport]

/-- The reports are those of each line by itself if only the last line may leave the loop. -/
theorem reportLines_eq_flatMap_iff (hfails : ∀ line ∈ lines, ¬Fails database line) :
    reportLines ops database lines =
      (lines.flatMap fun line => (reportLines ops database [line]).1, none) ↔
    ∀ line ∈ lines.dropLast, ¬LeavesLoop database line := by
  induction lines with
  | nil => exact iff_of_true rfl (List.forall_mem_nil _)
  | cons line rest ih =>
      obtain ⟨hline, hrest⟩ := List.forall_mem_cons.mp hfails
      by_cases hleaves : LeavesLoop database line
      · obtain ⟨report, hreport⟩ := reportLine_leaves ops hleaves
        have halone : reportLines ops database [line] = ([report], none) := by
          rw [reportLines, hreport]
        rw [reportLines, hreport, List.flatMap_cons, halone]
        cases rest with
        | nil => exact iff_of_true rfl (List.forall_mem_nil _)
        | cons next more =>
            obtain ⟨other, hother⟩ := exists_alone ops (hrest next List.mem_cons_self)
            apply iff_of_false
            · intro h
              rw [List.flatMap_cons, hother] at h
              cases congrArg Prod.fst h
            · intro h
              exact h line List.mem_cons_self hleaves
      · obtain ⟨report, hreport⟩ := reportLine_stays ops hleaves hline
        have halone : reportLines ops database [line] = ([report], none) := by
          rw [reportLines, hreport]
          rfl
        have hround : reportLines ops database (line :: rest) =
            (report :: (reportLines ops database rest).1, (reportLines ops database rest).2) := by
          rw [reportLines, hreport]
        have hsplit : (∀ x ∈ (line :: rest).dropLast, ¬LeavesLoop database x) ↔
            ∀ x ∈ rest.dropLast, ¬LeavesLoop database x := by
          cases rest with
          | nil => exact iff_of_true (List.forall_mem_nil _) (List.forall_mem_nil _)
          | cons next more =>
              rw [List.dropLast_cons_cons, List.forall_mem_cons]
              exact and_iff_right hleaves
        rw [hround, List.flatMap_cons, halone, hsplit, ← ih hrest, Prod.mk.injEq,
          List.singleton_append, List.cons.injEq, Prod.ext_iff]
        simp

end Files

/-- A rate database that is not empty, whose keys are dates. -/
structure Database (δ : Type) extends SortedMap Str δ where
  ne_nil : entries ≠ []
  dated : ∀ entry ∈ entries, ∃ date : Date, entry.1 = date.text

section Databases

variable {δ : Type}

def Database.IsKey (database : Database δ) (key : Date) : Prop :=
  ∃ rate, (key.text, rate) ∈ database.entries

/-- The rate of the greatest date of the database that is not later. -/
def Database.IsRate (database : Database δ) (date : Date) (rate : δ) : Prop :=
  ∃ key : Date, (key.text, rate) ∈ database.entries ∧ key.order ≤ date.order ∧
    ∀ other, database.IsKey other → other.order ≤ date.order → other.order ≤ key.order

/-- What is to be reported for a well-formed line. -/
structure Reported {ops : DoubleOps δ} (database : Database δ) (input : Input ops)
    (reports : List Report) : Prop where
  rate : ∀ rate, database.IsRate input.date rate → reports = [input.result rate]
  none : (∀ key, database.IsKey key → input.date.order < key.order) →
    ∃ text, reports = [.cerr text]

/-- Each line is reported as it is by itself, and a well-formed line with its rate. -/
structure LooksUpRates (ops : DoubleOps δ) (database : Database δ) (lines : List Str) : Prop where
  alone : ∀ line ∈ lines, (changeDB ops database.toSortedMap [header, line]).2 = none
  independent : changeDB ops database.toSortedMap (header :: lines) =
    (lines.flatMap fun line => (changeDB ops database.toSortedMap [header, line]).1, none)
  reported : ∀ input : Input ops, input.line ∈ lines →
    Reported database input (changeDB ops database.toSortedMap [header, input.line]).1

/-- No line but the last leaves the loop, nothing is thrown, and the dates of well-formed lines
are neither before the first date of the database nor after its last. -/
structure Regular (ops : DoubleOps δ) (database : Database δ) (lines : List Str) : Prop where
  reads : ∀ line ∈ lines, ¬Fails database.toSortedMap line
  stays : ∀ line ∈ lines.dropLast, ¬LeavesLoop database.toSortedMap line
  before : ∀ input : Input ops, input.line ∈ lines →
    ∃ key, database.IsKey key ∧ key.order ≤ input.date.order
  behind : ∀ input : Input ops, input.line ∈ lines →
    ∃ key, database.IsKey key ∧ input.date.order ≤ key.order

variable {ops : DoubleOps δ} {database : Database δ}

theorem changeDB_header (ops : DoubleOps δ) (database : SortedMap Str δ) (lines : List Str) :
    changeDB ops database (header :: lines) = reportLines ops database lines :=
  if_neg (not_not.mpr rfl)

theorem Database.isKey_of_mem {entry : Str × δ} (h : entry ∈ database.entries) :
    ∃ key, entry.1 = key.text ∧ database.IsKey key := by
  obtain ⟨key, hkey⟩ := database.dated entry h
  exact ⟨key, hkey, entry.2, hkey ▸ h⟩

theorem Database.isRate_of_isFloor {date : Date} {entry : Str × δ}
    (h : database.IsFloor date.text entry) : database.IsRate date entry.2 := by
  obtain ⟨key, hkey, -⟩ := Database.isKey_of_mem h.mem
  refine ⟨key, hkey ▸ h.mem, ?_, ?_⟩
  · rw [← Date.text_le_iff, ← hkey]
    exact h.le
  · rintro other ⟨rate, hmem⟩ hle
    have hgreatest := h.greatest _ hmem ((Date.text_le_iff _ _).mpr hle)
    rw [← Date.text_le_iff, ← hkey]
    exact hgreatest

theorem Database.isFloor_of_isRate {date : Date} {rate : δ} (h : database.IsRate date rate) :
    ∃ key, database.IsFloor date.text (key, rate) := by
  obtain ⟨key, hmem, hle, hgreatest⟩ := h
  refine ⟨key.text, hmem, (Date.text_le_iff _ _).mpr hle, ?_⟩
  intro entry hentry hother
  obtain ⟨other, htext, hkey⟩ := Database.isKey_of_mem hentry
  rw [htext, Date.text_le_iff] at hother ⊢
  exact hgreatest other hkey hother

theorem Database.isRate_unique {date : Date} {rate rate' : δ} (h : database.IsRate date rate)
    (h' : database.IsRate date rate') : rate = rate' := by
  obtain ⟨key, hfloor⟩ := Database.isFloor_of_isRate h
  obtain ⟨key', hfloor'⟩ := Database.isFloor_of_isRate h'
  exact congrArg Prod.snd (hfloor.unique hfloor')

theorem Database.exists_isRate {date : Date}
    (h : ∀ key, database.IsKey key → key.order ≤ date.order) :
    ∃ rate, database.IsRate date rate := by
  obtain ⟨entry, hentry⟩ := List.exists_mem_of_ne_nil _ database.ne_nil
  obtain ⟨key, htext, hkey⟩ := Database.isKey_of_mem hentry
  have hle : entry.1 ≤ date.text := by
    rw [htext, Date.text_le_iff]
    exact h key hkey
  obtain ⟨floor, hfloor⟩ := SortedMap.exists_isFloor ⟨entry, hentry, hle⟩
  exact ⟨floor.2, Database.isRate_of_isFloor hfloor⟩

variable (input : Input ops)

/-- A well-formed line by itself, when its date is given a rate. -/
theorem alone_input {rate : δ}
    (h : lookUp database.toSortedMap input.date.text = .ok (some rate)) :
    changeDB ops database.toSortedMap [header, input.line] = ([input.result rate], none) := by
  rw [changeDB_header, reportLines, reportLine_input input h]
  rfl

theorem alone_covered (hbefore : ∃ key, database.IsKey key ∧ key.order ≤ input.date.order)
    (hbehind : ∃ key, database.IsKey key ∧ input.date.order ≤ key.order) :
    ∃ rate, database.IsRate input.date rate ∧
      changeDB ops database.toSortedMap [header, input.line] = ([input.result rate], none) := by
  have hle : ∃ entry ∈ database.entries, entry.1 ≤ input.date.text := by
    obtain ⟨key, ⟨rate, hmem⟩, hkey⟩ := hbefore
    exact ⟨_, hmem, (Date.text_le_iff _ _).mpr hkey⟩
  have hge : ∃ entry ∈ database.entries, input.date.text ≤ entry.1 := by
    obtain ⟨key, ⟨rate, hmem⟩, hkey⟩ := hbehind
    exact ⟨_, hmem, (Date.text_le_iff _ _).mpr hkey⟩
  obtain ⟨entry, hfloor, hrate⟩ := lookUp_covered (checkDate_text input.valid) hle hge
  exact ⟨entry.2, Database.isRate_of_isFloor hfloor, alone_input input hrate⟩

/-- A date before the first is given a rate all the same. -/
theorem alone_early (h : ∀ key, database.IsKey key → input.date.order < key.order) :
    ∃ rate, changeDB ops database.toSortedMap [header, input.line] =
      ([input.result rate], none) := by
  have hlt : ∀ entry ∈ database.entries, input.date.text < entry.1 := by
    intro entry hentry
    obtain ⟨key, htext, hkey⟩ := Database.isKey_of_mem hentry
    rw [htext, Date.text_lt_iff]
    exact h key hkey
  obtain ⟨rate, hrate⟩ := lookUp_first (checkDate_text input.valid) database.ne_nil hlt
  exact ⟨rate, alone_input input hrate⟩

/-- A date after the last is given none. -/
theorem alone_late (h : ∀ key, database.IsKey key → key.order < input.date.order) :
    changeDB ops database.toSortedMap [header, input.line] =
      ([noData input.date.text], none) := by
  have hlt : ∀ entry ∈ database.entries, entry.1 < input.date.text := by
    intro entry hentry
    obtain ⟨key, htext, hkey⟩ := Database.isKey_of_mem hentry
    rw [htext, Date.text_lt_iff]
    exact h key hkey
  have hline : reportLine ops database.toSortedMap input.line =
      .error (.returned (noData input.date.text)) :=
    reportLine_of_error (hasDate_input input) (lookUp_returned (checkDate_text input.valid) hlt)
  rw [changeDB_header, reportLines, hline]

theorem noData_ne_result (rate : δ) : noData input.date.text ≠ input.result rate := by
  intro h
  obtain ⟨c, rest, hyear⟩ := List.exists_cons_of_length_pos
    (input.date.length_year.symm ▸ Nat.succ_pos 3 : 0 < input.date.year.length)
  have hdigit : c.isDigit = true :=
    input.date.digits_year c (hyear ▸ List.mem_cons_self)
  have htext := Report.cout.inj h
  rw [Date.text, hyear] at htext
  obtain ⟨rfl, -⟩ := List.cons.inj htext
  cases hdigit

theorem reported_iff : Reported database input
      (changeDB ops database.toSortedMap [header, input.line]).1 ↔
    (∃ key, database.IsKey key ∧ key.order ≤ input.date.order) ∧
      ∃ key, database.IsKey key ∧ input.date.order ≤ key.order := by
  constructor
  · intro h
    constructor
    · by_contra hnone
      push Not at hnone
      obtain ⟨rate, halone⟩ := alone_early input hnone
      obtain ⟨text, htext⟩ := h.none hnone
      rw [halone] at htext
      cases htext
    · by_contra hnone
      push Not at hnone
      obtain ⟨rate, hrate⟩ := Database.exists_isRate fun key hkey => le_of_lt (hnone key hkey)
      have hreports := h.rate rate hrate
      rw [alone_late input hnone] at hreports
      exact noData_ne_result input rate (List.cons.inj hreports).1
  · rintro ⟨hbefore, hbehind⟩
    obtain ⟨rate, hrate, halone⟩ := alone_covered input hbefore hbehind
    rw [halone]
    refine ⟨?_, ?_⟩
    · intro other hother
      rw [Database.isRate_unique hother hrate]
    · intro hnone
      obtain ⟨key, hkey, hle⟩ := hbefore
      exact absurd hle (not_le.mpr (hnone key hkey))

/-- Exactly for the regular files each line is reported as it should. -/
theorem looksUpRates_iff (ops : DoubleOps δ) (database : Database δ) (lines : List Str) :
    LooksUpRates ops database lines ↔ Regular ops database lines := by
  constructor
  · rintro ⟨halone, hindependent, hreported⟩
    have hreads : ∀ line ∈ lines, ¬Fails database.toSortedMap line := by
      intro line hline
      have hnone := halone line hline
      rw [changeDB_header] at hnone
      exact alone_eq_none_iff.mp hnone
    simp only [changeDB_header] at hindependent
    refine ⟨hreads, (reportLines_eq_flatMap_iff hreads).mp hindependent, ?_, ?_⟩
    · intro input hinput
      exact ((reported_iff input).mp (hreported input hinput)).1
    · intro input hinput
      exact ((reported_iff input).mp (hreported input hinput)).2
  · rintro ⟨hreads, hstays, hbefore, hbehind⟩
    refine ⟨?_, ?_, ?_⟩
    · intro line hline
      rw [changeDB_header]
      exact alone_eq_none_iff.mpr (hreads line hline)
    · simp only [changeDB_header]
      exact (reportLines_eq_flatMap_iff hreads).mpr hstays
    · intro input hinput
      exact (reported_iff input).mpr ⟨hbefore input hinput, hbehind input hinput⟩

end Databases

section AfterTheLast

/-- The operations on the amounts that are whole numbers. -/
def wholeOps : DoubleOps Nat where
  strtod := fun s => decimal (s.takeWhile Char.isDigit)
  negative := fun _ => false
  aboveThousand := fun n => decide (1000 < n)
  times := (· * ·)
  shown := fun n => (toString n).toList

def newYear : Date where
  year := "2020".toList
  month := "01".toList
  day := "01".toList
  length_year := rfl
  length_month := rfl
  length_day := rfl
  digits_year := List.all_eq_true.mp rfl
  digits_month := List.all_eq_true.mp rfl
  digits_day := List.all_eq_true.mp rfl

def oneRate : Database Nat where
  entries := [(newYear.text, 5)]
  sorted := List.pairwise_singleton _ _
  ne_nil := List.cons_ne_nil _ _
  dated := List.forall_mem_singleton.mpr ⟨newYear, rfl⟩

/-- Behind a date after the last nothing is read. -/
theorem not_looksUpRates : ¬∀ (δ : Type) (ops : DoubleOps δ) (database : Database δ)
    (lines : List Str), LooksUpRates ops database lines := by
  intro hall
  have hrates := hall Nat wholeOps oneRate ["2021-01-01 | 1".toList, "2020-01-01 | 1".toList]
  exact absurd hrates.independent (by decide)

end AfterTheLast

end FortyTwo.Cpp.BitcoinExchange
