import Aesd.Lib.Printing
import Aesd.Server.Process

/-!
# The timestamps (`timestamp_handler` in `server/aesdsocket.c`)

`strftime` prints the broken-down local time into `timestamp[100]`, and `write` gets the string
that is there.  `strftime` is modelled for the conversions in the format of `timestamp_handler`, in
the C locale, which is the one of a program that does not call `setlocale`.

* `strftime_eq`: what is printed, field by field;
* `timestamp`: it is a line and fits the array, whatever the time;
* `timestamps_read_back`: a data file of whole lines tells which of them are timestamps, and of
  what time.
-/

namespace Aesd

open Printing

/-- `struct tm`, as `localtime` fills it: the fields that are printed, in the ranges that the C
standard gives them.  `year` counts from 1900 and may be negative; the number of the year, which
`strftime` prints, fits an `int` too. -/
structure Tm where
  sec : ℕ
  min : ℕ
  hour : ℕ
  mday : ℕ
  mon : ℕ
  year : ℤ
  wday : ℕ
  gmtoff : ℤ
  sec_le : sec ≤ 60
  min_lt : min < 60
  hour_lt : hour < 24
  mday_le : mday ≤ 31
  mon_lt : mon < 12
  le_year : -2 ^ 31 ≤ year
  year_lt : year + 1900 < 2 ^ 31
  wday_lt : wday < 7
  gmtoff_lt : gmtoff.natAbs < 100 * 3600

/-- The bytes of an ASCII string. -/
def ascii (s : String) : List UInt8 := s.toList.map fun c => .ofNat c.toNat

/-- `%a`. -/
def weekday (wday : ℕ) : List UInt8 :=
  ascii (["Sun", "Mon", "Tue", "Wed", "Thu", "Fri", "Sat"].getD wday "?")

/-- `%b`. -/
def month (mon : ℕ) : List UInt8 :=
  ascii (["Jan", "Feb", "Mar", "Apr", "May", "Jun", "Jul", "Aug", "Sep", "Oct", "Nov",
    "Dec"].getD mon "?")

/-- `%z`: the sign, hours and minutes. -/
def zone (gmtoff : ℤ) : List UInt8 :=
  let diff := gmtoff.natAbs / 60
  (if gmtoff < 0 then 45 else 43) :: decimal 4 (diff / 60 * 100 + diff % 60)

/-- What is printed for a conversion. -/
def conversion (tm : Tm) : Char → Option (List UInt8)
  | 'a' => some (weekday tm.wday)
  | 'b' => some (month tm.mon)
  | 'd' => some (decimal 2 tm.mday)
  | 'H' => some (decimal 2 tm.hour)
  | 'M' => some (decimal 2 tm.min)
  | 'S' => some (decimal 2 tm.sec)
  | 'Y' => some (signed (tm.year + 1900))
  | 'z' => some (zone tm.gmtoff)
  | _ => none

/-- What is printed for a format. -/
def expand (tm : Tm) : List Char → Option (List UInt8)
  | [] => some []
  | '%' :: c :: format => (conversion tm c).bind fun s => (expand tm format).map (s ++ ·)
  | c :: format => (expand tm format).map (.ofNat c.toNat :: ·)

/-- `strftime`: what is printed, if it fits together with its terminating zero. -/
def strftime (max : ℕ) (format : String) (tm : Tm) : Option (List UInt8) :=
  (expand tm format.toList).filter fun s => s.length < max

/-- The format of `timestamp_handler`. -/
def timestampFormat : String := "timestamp: %a, %d %b %Y %H:%M:%S %z\n"

/-- What `timestamp_handler` hands to `write`, if `timestamp[100]` holds `junk` before: the string
that is found there. -/
def timestampHandlerData (tm : Tm) (junk : List UInt8) : List UInt8 :=
  match strftime 100 timestampFormat tm with
  | some s => Scan.cString (s ++ 0 :: junk.drop (s.length + 1))
  | none => Scan.cString junk

/-! ### What is printed -/

/-- What every timestamp begins with. -/
def timestampPrefix : List UInt8 := ascii "timestamp: "

/-- The line, without its newline. -/
def timestampBody (tm : Tm) : List UInt8 :=
  timestampPrefix ++ (weekday tm.wday ++ (ascii ", " ++ (decimal 2 tm.mday ++ (ascii " " ++
    (month tm.mon ++ (ascii " " ++ ((signed (tm.year + 1900) ++ [32]) ++ (decimal 2 tm.hour ++
      (ascii ":" ++ (decimal 2 tm.min ++ (ascii ":" ++ (decimal 2 tm.sec ++ (ascii " " ++
        zone tm.gmtoff)))))))))))))

theorem expand_eq (tm : Tm) :
    expand tm timestampFormat.toList = some (timestampBody tm ++ [newline]) := by
  have hchars : timestampFormat.toList = ['t', 'i', 'm', 'e', 's', 't', 'a', 'm', 'p', ':', ' ',
      '%', 'a', ',', ' ', '%', 'd', ' ', '%', 'b', ' ', '%', 'Y', ' ', '%', 'H', ':', '%', 'M', ':',
      '%', 'S', ' ', '%', 'z', '\n'] := by decide
  rw [hchars]
  simp [expand, conversion, timestampBody, timestampPrefix, ascii, newline]

/-- Letters, digits and signs, as they are printed: nothing below the space. -/
def Printed (s : List UInt8) : Prop := ∀ c ∈ s, 32 ≤ c

theorem Printed.append {s t : List UInt8} (hs : Printed s) (ht : Printed t) : Printed (s ++ t) :=
  fun c hc => (List.mem_append.1 hc).elim (hs c) (ht c)

theorem printed_decimal (w n : ℕ) : Printed (decimal w n) := by
  intro c hc
  have hdigit := isDigit_decimal hc
  simp only [Scan.isDigit, decide_eq_true_eq] at hdigit
  exact UInt8.le_trans (by decide : (32 : UInt8) ≤ 48) hdigit.1

theorem printed_signed (z : ℤ) : Printed (signed z) := by
  intro c hc
  rcases mem_signed hc with rfl | hdigit
  · decide
  · simp only [Scan.isDigit, decide_eq_true_eq] at hdigit
    exact UInt8.le_trans (by decide : (32 : UInt8) ≤ 48) hdigit.1

theorem weekday_table : ∀ d < 7, Printed (weekday d) ∧ (weekday d).length = 3 ∧
    ∀ e < 7, weekday d = weekday e → d = e := by
  unfold Printed
  decide +kernel

theorem month_table : ∀ m < 12, Printed (month m) ∧ (month m).length = 3 ∧
    ∀ n < 12, month m = month n → m = n := by
  unfold Printed
  decide +kernel

theorem printed_zone (gmtoff : ℤ) : Printed (zone gmtoff) := by
  intro c hc
  rcases List.mem_cons.1 hc with rfl | hc
  · split_ifs <;> decide
  · exact printed_decimal _ _ c hc

theorem printed_timestampBody (tm : Tm) : Printed (timestampBody tm) := by
  have hstamp : Printed timestampPrefix := by unfold Printed; decide +kernel
  have hcomma : Printed (ascii ", ") := by unfold Printed; decide +kernel
  have hspace : Printed (ascii " ") := by unfold Printed; decide +kernel
  have hcolon : Printed (ascii ":") := by unfold Printed; decide +kernel
  have hblank : Printed [32] := by unfold Printed; decide +kernel
  have hday := (weekday_table tm.wday tm.wday_lt).1
  have hmon := (month_table tm.mon tm.mon_lt).1
  exact hstamp.append <| hday.append <| hcomma.append <| (printed_decimal _ _).append <|
    hspace.append <| hmon.append <| hspace.append <| ((printed_signed _).append hblank).append <|
      (printed_decimal _ _).append <| hcolon.append <| (printed_decimal _ _).append <|
        hcolon.append <| (printed_decimal _ _).append <| hspace.append <| printed_zone _

theorem Printed.notMem {s : List UInt8} (hs : Printed s) {c : UInt8} (hc : c < 32) : c ∉ s :=
  fun hmem => absurd (hs c hmem) (UInt8.not_le.2 hc)

theorem zone_lt (tm : Tm) :
    tm.gmtoff.natAbs / 60 / 60 * 100 + tm.gmtoff.natAbs / 60 % 60 < 10 ^ 4 := by
  have := tm.gmtoff_lt
  omega

theorem zone_length (tm : Tm) : (zone tm.gmtoff).length = 5 := by
  rw [zone, List.length_cons, decimal_length (zone_lt tm)]

/-- There is always room for the terminating zero. -/
theorem timestampBody_length (tm : Tm) : (timestampBody tm).length ≤ 53 := by
  have hyear : (signed (tm.year + 1900)).length ≤ 11 := by
    refine signed_length_le (by norm_num) ?_
    have := tm.le_year
    have := tm.year_lt
    omega
  have htwo : ∀ n, n < 100 → (decimal 2 n).length = 2 := fun n hn => decimal_length (by simpa)
  have hsec := tm.sec_le
  have hmin := tm.min_lt
  have hhour := tm.hour_lt
  have hmday := tm.mday_le
  have hstamp : timestampPrefix.length = 11 := by decide
  have hcomma : (ascii ", ").length = 2 := by decide
  have hspace : (ascii " ").length = 1 := by decide
  have hcolon : (ascii ":").length = 1 := by decide
  simp only [timestampBody, List.length_append, hstamp, hcomma, hspace, hcolon,
    (weekday_table tm.wday tm.wday_lt).2.1, (month_table tm.mon tm.mon_lt).2.1, zone_length,
    htwo tm.mday (by omega), htwo tm.hour (by omega), htwo tm.min (by omega),
    htwo tm.sec (by omega), List.length_singleton]
  omega

/-- **The line of a timestamp.** -/
def timestamp (tm : Tm) : TimestampLine where
  bytes := timestampBody tm ++ [newline]
  isLine := ⟨timestampBody tm, rfl, (printed_timestampBody tm).notMem (by decide)⟩
  length_lt := by
    have := timestampBody_length tm
    rw [List.length_append, List.length_singleton]
    omega

theorem strftime_eq (tm : Tm) : strftime 100 timestampFormat tm = some (timestamp tm).bytes := by
  unfold strftime
  rw [expand_eq]
  exact Option.filter_some_pos (decide_eq_true (timestamp tm).length_lt)

/-- The string in the array is the line, whatever was there before. -/
theorem timestampHandlerData_eq (tm : Tm) (junk : List UInt8) :
    timestampHandlerData tm junk = (timestamp tm).bytes := by
  have hne : ∀ c ∈ (timestamp tm).bytes, c ≠ 0 := by
    intro c hc
    rcases List.mem_append.1 hc with hc | hc
    · exact ne_of_mem_of_not_mem hc ((printed_timestampBody tm).notMem (by decide))
    · rw [List.mem_singleton.1 hc]
      decide
  unfold timestampHandlerData
  rw [strftime_eq]
  change Scan.cString _ = _
  rw [Scan.cString_append hne]
  simp [Scan.cString]

/-! ### Reading it back -/

/-- What a timestamp shows of the time: the offset from UTC by its sign and in minutes. -/
structure Shown where
  wday : ℕ
  mday : ℕ
  mon : ℕ
  year : ℤ
  hour : ℕ
  min : ℕ
  sec : ℕ
  west : Bool
  minutes : ℕ
  deriving DecidableEq

/-- What is shown of a time. -/
def Tm.shown (tm : Tm) : Shown where
  wday := tm.wday
  mday := tm.mday
  mon := tm.mon
  year := tm.year
  hour := tm.hour
  min := tm.min
  sec := tm.sec
  west := tm.gmtoff < 0
  minutes := tm.gmtoff.natAbs / 60

theorem determines_two {field : Tm → ℕ} (hlt : ∀ tm, field tm < 100) :
    Determines (fun tm => decimal 2 (field tm)) field :=
  .of_length (fun a b => by rw [decimal_length (by simpa using hlt a),
    decimal_length (by simpa using hlt b)]) fun _ _ h => decimal_injective 2 h

theorem determines_zone : Determines (fun tm : Tm => zone tm.gmtoff)
    fun tm => (decide (tm.gmtoff < 0), tm.gmtoff.natAbs / 60) := by
  refine .of_length (fun a b => by rw [zone_length, zone_length]) fun a b h => ?_
  obtain ⟨hsign, hdiff⟩ := List.cons_eq_cons.1 h
  have hminutes := decimal_injective 4 hdiff
  refine Prod.ext ?_ (by dsimp only at hminutes ⊢; omega)
  by_cases ha : a.gmtoff < 0 <;> by_cases hb : b.gmtoff < 0 <;> simp [ha, hb] at hsign ⊢

/-- **A timestamp is told from its text**, whatever comes behind it. -/
theorem determines_timestamp : Determines timestampBody Tm.shown := by
  have hday : Determines (fun tm : Tm => weekday tm.wday) Tm.wday :=
    .of_length (fun a b => by
      rw [(weekday_table a.wday a.wday_lt).2.1, (weekday_table b.wday b.wday_lt).2.1])
      fun a b => (weekday_table a.wday a.wday_lt).2.2 b.wday b.wday_lt
  have hmon : Determines (fun tm : Tm => month tm.mon) Tm.mon :=
    .of_length (fun a b => by
      rw [(month_table a.mon a.mon_lt).2.1, (month_table b.mon b.mon_lt).2.1])
      fun a b => (month_table a.mon a.mon_lt).2.2 b.mon b.mon_lt
  -- the year has as many digits as it needs, and a space behind it
  have hyear : Determines (fun tm : Tm => signed (tm.year + 1900) ++ [32]) Tm.year :=
    .of_end (fun a hc => (mem_signed hc).elim (by decide) (by decide))
      fun a b h => add_right_cancel (signed_injective h)
  have htwo := @determines_two
  have hall := Determines.behind timestampPrefix <| hday.append <| Determines.behind (ascii ", ") <|
    (htwo fun tm => (by have := tm.mday_le; omega : tm.mday < 100)).append <|
    Determines.behind (ascii " ") <| hmon.append <| Determines.behind (ascii " ") <| hyear.append <|
    (htwo fun tm => (by have := tm.hour_lt; omega : tm.hour < 100)).append <|
    Determines.behind (ascii ":") <|
    (htwo fun tm => (by have := tm.min_lt; omega : tm.min < 100)).append <|
    Determines.behind (ascii ":") <|
    (htwo fun tm => (by have := tm.sec_le; omega : tm.sec < 100)).append <|
    Determines.behind (ascii " ") determines_zone
  exact hall.comp fun v =>
    Shown.mk v.1 v.2.1 v.2.2.1 v.2.2.2.1 v.2.2.2.2.1 v.2.2.2.2.2.1 v.2.2.2.2.2.2.1
      v.2.2.2.2.2.2.2.1 v.2.2.2.2.2.2.2.2

/-- A line of the data file: a line of a client that does not look like a timestamp, or a
timestamp. -/
inductive FileLine
  | client (l : List UInt8) (hline : newline ∉ l) (hstamp : ¬ timestampPrefix <+: l)
  | time (tm : Tm)

namespace FileLine

/-- The line without its newline. -/
def body : FileLine → List UInt8
  | client l _ _ => l
  | time tm => timestampBody tm

/-- The line as it is written. -/
def bytes (f : FileLine) : List UInt8 := f.body ++ [newline]

/-- What can be read off it. -/
def read : FileLine → List UInt8 ⊕ Shown
  | client l _ _ => .inl l
  | time tm => .inr tm.shown

theorem newline_notMem (f : FileLine) : newline ∉ f.body := by
  cases f with
  | client l hline hstamp => exact hline
  | time tm => exact (printed_timestampBody tm).notMem (by decide)

theorem read_eq {f f' : FileLine} (h : f.body = f'.body) : f.read = f'.read := by
  cases f with
  | client l hline hstamp =>
    cases f' with
    | client l' hline' hstamp' => exact congrArg Sum.inl h
    | time tm => exact absurd (by rw [show l = _ from h]; exact List.prefix_append _ _) hstamp
  | time tm =>
    cases f' with
    | client l hline hstamp =>
      exact absurd (by rw [← show _ = l from h]; exact List.prefix_append _ _) hstamp
    | time tm' =>
      exact congrArg Sum.inr (determines_timestamp tm tm' [] [] (congrArg (· ++ []) h)).1

end FileLine

/-- **Timestamps are read back.**  For every time that `localtime` can give in a year whose number
fits an `int`, before the Epoch or after it, `strftime` fits the array, and what `timestamp_handler`
writes is one line.  If the data file consists of such lines and of lines of clients that do not
begin with `timestamp: `, in any order, then it tells which lines these are, one after the other,
and every timestamp tells its date, time and offset. -/
theorem timestamps_read_back :
    (∀ (tm : Tm) (junk : List UInt8),
      strftime 100 timestampFormat tm = some (timestampHandlerData tm junk) ∧
      timestampHandlerData tm junk = (FileLine.time tm).bytes ∧
      newline ∉ (FileLine.time tm).body) ∧
    ∀ fs gs : List FileLine, fs.flatMap FileLine.bytes = gs.flatMap FileLine.bytes →
      fs.map FileLine.read = gs.map FileLine.read := by
  refine ⟨fun tm junk => ?_, fun fs gs h => ?_⟩
  · rw [timestampHandlerData_eq, strftime_eq]
    exact ⟨rfl, rfl, (FileLine.time tm).newline_notMem⟩
  · have hlines : Determines FileLine.bytes FileLine.read :=
      .of_end FileLine.newline_notMem fun _ _ => FileLine.read_eq
    exact hlines.flatMap (fun f => by simp [FileLine.bytes]) h

/-- Two clocks that differ in the seconds of their offset only write the same timestamp, here in the
year -5. -/
theorem timestamps_read_back_offset_seconds :
    let tm (off : ℕ) (hoff : off < 100 * 3600) : Tm :=
      ⟨0, 0, 0, 1, 0, -1905, 1, off, by decide, by decide, by decide, by decide, by decide,
        by decide, by decide, by decide, by simpa using hoff⟩
    let client : FileLine := .client [97] (by decide) (by decide)
    [FileLine.time (tm 3600 (by decide)), client].map FileLine.read =
      [FileLine.time (tm 3601 (by decide)), client].map FileLine.read := by
  intro tm client
  refine timestamps_read_back.2 _ _ ?_
  simp [tm, FileLine.bytes, FileLine.body, timestampBody, zone]

end Aesd
