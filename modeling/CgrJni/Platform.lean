import Mathlib

/-!
Reading text as `platform.c` and the C library do. A string is the list of its
characters, without the null character that ends it.
-/

namespace Platform

abbrev CString := List Char

def isspace (c : Char) : Bool := c = ' ' || (9 ≤ c.toNat && c.toNat ≤ 13)

def quoteMark : Char := Char.ofNat 39

def escapeMark : Char := Char.ofNat 92

/-- What comes before the next quote that is not escaped, and what follows that quote. -/
def quoted : CString → CString × CString
  | [] => ([], [])
  | [c] => if c = quoteMark then ([], []) else ([c], [])
  | c :: e :: rest =>
    if c = escapeMark then
      let q := quoted rest
      (c :: e :: q.1, q.2)
    else if c = quoteMark then ([], e :: rest)
    else
      let q := quoted (e :: rest)
      (c :: q.1, q.2)

/-- The next token, if there is one, and the cursor behind it. -/
def findToken (cursor : CString) : Option CString × CString :=
  match cursor.dropWhile isspace with
  | [] => (none, [])
  | c :: rest =>
    if c = quoteMark then
      if rest = [] then (none, [])
      else
        let q := quoted rest
        (some q.1, q.2)
    else
      let word := (c :: rest).span (fun c => !isspace c)
      (some word.1, word.2.drop 1)

/-- What is put into the buffer until the line ends or the buffer is full, and what is left of the file. -/
def fillBuffer : Nat → CString → CString × CString
  | 0, file => ([], file)
  | _ + 1, [] => ([], [])
  | n + 1, c :: file =>
    if c = '\n' then ([], file)
    else
      let line := fillBuffer n file
      (c :: line.1, line.2)

/-- The next line, or none at the end of the file; the last character that fits gives way to the
null character. -/
def igets (buflen : Nat) (file : CString) : Option (CString × CString) :=
  if file = [] then none
  else
    let line := fillBuffer buflen file
    let buffer := if line.1.length = buflen then line.1.dropLast else line.1
    some (buffer.takeWhile (fun c => c.toNat ≠ 0), line.2)

/-- The value of a digit; no base has as many as thirty-six. -/
def digitValue (c : Char) : Nat :=
  if '0' ≤ c ∧ c ≤ '9' then c.toNat - 48
  else if 'a' ≤ c ∧ c ≤ 'z' then c.toNat - 87
  else if 'A' ≤ c ∧ c ≤ 'Z' then c.toNat - 55
  else 36

def digits (base : Nat) (s : CString) : Nat :=
  ((s.map digitValue).takeWhile (fun d => d < base)).foldl (fun n d => n * base + d) 0

/-- With base zero, the base is told by how the number begins. -/
def magnitude (base : Nat) (s : CString) : Nat :=
  if base ≠ 0 then digits base s
  else
    match s with
    | '0' :: x :: d :: rest => if (x = 'x' ∨ x = 'X') ∧ digitValue d < 16 then digits 16 (d :: rest) else digits 8 s
    | '0' :: _ => digits 8 s
    | _ => digits 10 s

/-- Whether a number is negative, and what follows its sign. -/
def signed : CString → Bool × CString
  | '-' :: rest => (true, rest)
  | '+' :: rest => (false, rest)
  | s => (false, s)

def strtol (base : Nat) (s : CString) : Int :=
  let number := signed (s.dropWhile isspace)
  let n := magnitude base number.2
  if number.1 then max (-2 ^ 63) (-(n : Int)) else min (2 ^ 63 - 1) n

def strtouvast (s : CString) : Nat :=
  let number := signed (s.dropWhile isspace)
  let n := magnitude 0 number.2
  if 2 ^ 64 ≤ n then 2 ^ 64 - 1 else if number.1 then (2 ^ 64 - n) % 2 ^ 64 else n

/-- A number that is stored in an unsigned integer. -/
def toUnsigned (n : Int) : Nat := (n % 2 ^ 32).toNat

/-- A decimal number of at most so many characters, and what follows it. -/
def scanInt (width : Nat) (s : CString) : Option (Int × CString) :=
  let s := s.dropWhile isspace
  let number := signed (s.take width)
  let d := number.2.takeWhile Char.isDigit
  if d = [] then none
  else some (if number.1 then -(digits 10 d : Int) else digits 10 d, number.2.drop d.length ++ s.drop width)

def scanChar (c : Char) (s : CString) : Option CString := if s.head? = some c then some s.tail else none

/-- A date and a time of day as in `%4d/%2d/%2d-%2d:%2d:%2d`; whatever follows is not looked at. -/
def scanTimestamp (s : CString) : Option (Int × Int × Int × Int × Int × Int) := do
  let (year, s) ← scanInt 4 s
  let (mon, s) ← scanInt 2 (← scanChar '/' s)
  let (mday, s) ← scanInt 2 (← scanChar '/' s)
  let (hour, s) ← scanInt 2 (← scanChar '-' s)
  let (min, s) ← scanInt 2 (← scanChar ':' s)
  let (sec, _) ← scanInt 2 (← scanChar ':' s)
  return (year, mon, mday, hour, min, sec)

/-- Days from the epoch to the first of a month, counted in years that begin in March. -/
def daysToMonth (year mon : Int) : Int :=
  let y := if mon < 2 then year - 1 else year
  let m := if mon < 2 then mon + 10 else mon - 2
  y * 365 + y / 4 - y / 100 + y / 400 + (153 * m + 2) / 5 - 719468

/-- What `mktime` makes of the fields less `timezone`, in a zone with one offset at all times, as UTC has:
fields out of range carry over. The month counts from zero. -/
def mktimeUTC (year mon mday hour min sec : Int) : Int :=
  let days := daysToMonth (year + mon / 12) (mon % 12) + (mday - 1)
  ((days * 24 + hour) * 60 + min) * 60 + sec

/-- Zero stands for a timestamp that cannot be read. -/
def readTimestampUTC (timestamp : Option CString) (referenceTime : Int) : Int :=
  match timestamp with
  | none => 0
  | some ('+' :: interval) => referenceTime + strtol 0 interval
  | some s =>
    match scanTimestamp s with
    | none => 0
    | some (year, mon, mday, hour, min, sec) => mktimeUTC year (mon - 1) mday hour min sec

/-- A timestamp that is an offset from the reference time. -/
def relative (timestamp : Option CString) : Bool := (timestamp.bind List.head?) = some '+'

theorem readTimestampUTC_absolute {timestamp : Option CString} (h : relative timestamp = false)
    (referenceTime referenceTime' : Int) :
    readTimestampUTC timestamp referenceTime = readTimestampUTC timestamp referenceTime' := by
  unfold readTimestampUTC
  split
  · rfl
  · simp [relative] at h
  · rfl

example : mktimeUTC 2016 0 1 0 0 0 = 1451606400 := by decide
example : readTimestampUTC (some ['2', '0', '1', '6', '/', '1', '/', '1', '-', '0', '0', ':', '0', '0', ':', '0', '0']) 0 =
    1451606400 := by decide

/-- A read takes at least one character off the file. -/
theorem igets_length {buflen : Nat} (hbuf : buflen ≠ 0) {file line rest : CString}
    (h : igets buflen file = some (line, rest)) : rest.length < file.length := by
  have hfill : ∀ n f, (fillBuffer n f).2.length ≤ f.length := by
    intro n f
    induction n generalizing f with
    | zero => exact Nat.le_refl _
    | succ n ih =>
      cases f with
      | nil => exact Nat.le_refl _
      | cons c f =>
        simp only [fillBuffer, List.length_cons]
        split
        · exact Nat.le_succ _
        · exact Nat.le_succ_of_le (ih f)
  cases file with
  | nil => cases h
  | cons c file =>
    obtain ⟨n, rfl⟩ := Nat.exists_eq_succ_of_ne_zero hbuf
    simp only [igets, reduceCtorEq, if_false, Option.some.injEq, Prod.mk.injEq] at h
    rw [← h.2, fillBuffer, List.length_cons]
    split
    · exact Nat.lt_succ_self _
    · exact Nat.lt_succ_of_le (hfill n file)

/-- The lines that a caller gets, reading until there is none. -/
def readLines (buflen : Nat) : Nat → CString → List CString
  | 0, _ => []
  | n + 1, file =>
    match igets buflen file with
    | none => []
    | some (line, rest) => line :: readLines buflen n rest

/-- As many reads as the file has characters are enough. -/
theorem readLines_length {buflen : Nat} (hbuf : buflen ≠ 0) {n : Nat} {file : CString} (h : file.length ≤ n) :
    readLines buflen n file = readLines buflen file.length file := by
  induction n using Nat.strongRecOn generalizing file with
  | ind n ih =>
    cases n with
    | zero =>
      obtain rfl : file = [] := List.eq_nil_of_length_eq_zero (Nat.le_zero.mp h)
      rfl
    | succ n =>
      cases file with
      | nil => rfl
      | cons c file =>
        rw [readLines, List.length_cons, readLines]
        cases hread : igets buflen (c :: file) with
        | none => rfl
        | some r =>
          have hlt := igets_length hbuf hread
          rw [List.length_cons] at hlt h
          have hn : readLines buflen n r.2 = readLines buflen r.2.length r.2 :=
            ih n (Nat.lt_succ_self n) (by omega)
          have hf : readLines buflen file.length r.2 = readLines buflen r.2.length r.2 :=
            ih file.length (by omega) (by omega)
          simp only [hn, hf]

end Platform
