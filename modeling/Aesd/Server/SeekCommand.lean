import Aesd.Device
import Aesd.Lib.Scan

/-!
# The seek command of the server

A client asks for `AESDCHAR_IOCSEEKTO` by sending a line of text.  `seekRequest` is how
`handle_connection` recognises it, by `strncmp` and `sscanf` on its receive buffer; the string
that `sscanf` reads may run on into the memory behind the buffer.  `seekCommand` is the line as it
is meant: the identifying string, two numbers below `2 ^ 32` with a comma between them, a newline.

* `seekRequest_of_seekCommand`: a line that is meant as a command is recognised as that command,
  whatever follows it in memory.
-/

namespace Aesd

open Scan

/-- `ioctl_id_string`: `AESDCHAR_IOCSEEKTO:`. -/
def ioctlIdString : List UInt8 :=
  [65, 69, 83, 68, 67, 72, 65, 82, 95, 73, 79, 67, 83, 69, 69, 75, 84, 79, 58]

/-- `','`. -/
def comma : UInt8 := 44

/-- `sscanf(s, "AESDCHAR_IOCSEEKTO:%d,%d", ..)` with the result `2`: the two numbers stored. -/
def sscanfSeek (s : List UInt8) : Option Seekto :=
  if s.take ioctlIdString.length = ioctlIdString then
    match scanInt (s.drop ioctlIdString.length) with
    | some (writeCmd, c :: rest) =>
      if c = comma then
        (scanInt rest).map fun r => ⟨low32 writeCmd, low32 r.1⟩
      else none
    | _ => none
  else none

/-- Lines 171 to 177 of `handle_connection`: the request in the buffer, if `strncmp` finds the
identifying string and `sscanf` both numbers.  `beyond` is the memory behind the buffer. -/
def seekRequest (buffer beyond : List UInt8) : Option Seekto :=
  if buffer.take ioctlIdString.length = ioctlIdString then sscanfSeek (cString (buffer ++ beyond))
  else none

theorem ioctlIdString_ne_zero : ∀ c ∈ ioctlIdString, c ≠ 0 := by simp [ioctlIdString]

/-- The first test is `strncmp(buffer, ioctl_id_string, strlen(ioctl_id_string)) == 0`. -/
theorem strncmp_ioctlIdString (buffer : List UInt8) :
    strncmp buffer ioctlIdString ioctlIdString.length = 0 ↔
      buffer.take ioctlIdString.length = ioctlIdString := by
  rw [strncmp_eq_zero ioctlIdString_ne_zero, List.prefix_iff_eq_take, eq_comm]

/-- The request that a line stands for. -/
def seekCommand (line : List UInt8) : Option Seekto :=
  let args := line.drop ioctlIdString.length
  let x := args.takeWhile isDigit
  let y := (args.dropWhile isDigit).tail.takeWhile isDigit
  if line = ioctlIdString ++ x ++ comma :: (y ++ [newline]) ∧ x ≠ [] ∧ y ≠ [] ∧
      digitsValue x < 2 ^ 32 ∧ digitsValue y < 2 ^ 32 then
    some ⟨.ofNat (digitsValue x), .ofNat (digitsValue y)⟩
  else none

theorem isDigit_ne_zero {c : UInt8} (h : isDigit c = true) : c ≠ 0 := by
  rintro rfl
  simp [isDigit] at h

theorem seekCommand_eq_some {line : List UInt8} {s : Seekto} (h : seekCommand line = some s) :
    ∃ x y, line = ioctlIdString ++ x ++ comma :: (y ++ [newline]) ∧ x ≠ [] ∧ y ≠ [] ∧
      (∀ c ∈ x, isDigit c = true) ∧ (∀ c ∈ y, isDigit c = true) ∧
      digitsValue x < 2 ^ 32 ∧ digitsValue y < 2 ^ 32 ∧
      s = ⟨.ofNat (digitsValue x), .ofNat (digitsValue y)⟩ := by
  unfold seekCommand at h
  dsimp only at h
  split_ifs at h with hc
  obtain ⟨hline, hx, hy, hvx, hvy⟩ := hc
  simp only [Option.some.injEq] at h
  exact ⟨_, _, hline, hx, hy, fun c hc => List.mem_takeWhile_imp hc,
    fun c hc => List.mem_takeWhile_imp hc, hvx, hvy, h.symm⟩

/-- `sscanf` on two numbers, with anything behind them that does not go on with a digit. -/
theorem sscanfSeek_numbers {x y rest : List UInt8} (hx : x ≠ []) (hy : y ≠ [])
    (hdx : ∀ c ∈ x, isDigit c = true) (hdy : ∀ c ∈ y, isDigit c = true)
    (hvx : digitsValue x < 2 ^ 32) (hvy : digitsValue y < 2 ^ 32)
    (hrest : ∀ c ∈ rest.head?, isDigit c = false) :
    sscanfSeek (ioctlIdString ++ (x ++ comma :: (y ++ rest))) =
      some ⟨.ofNat (digitsValue x), .ofNat (digitsValue y)⟩ := by
  have hfirst : scanInt (x ++ comma :: (y ++ rest)) = _ :=
    scanInt_digits hx hdx (by simp [comma, isDigit]) (by omega)
  have hsecond : scanInt (y ++ rest) = _ := scanInt_digits hy hdy hrest (by omega)
  unfold sscanfSeek
  rw [List.take_left, List.drop_left, if_pos rfl, hfirst]
  simp only [if_true, hsecond, Option.map_some, low32_natCast hvx, low32_natCast hvy]

/-- **A command is recognised**, whatever follows it in memory. -/
theorem seekRequest_of_seekCommand {line : List UInt8} {s : Seekto} (h : seekCommand line = some s)
    (behind beyond : List UInt8) : seekRequest (line ++ behind) beyond = some s := by
  obtain ⟨x, y, rfl, hx, hy, hdx, hdy, hvx, hvy, rfl⟩ := seekCommand_eq_some h
  have hnul : ∀ c ∈ ioctlIdString ++ x ++ comma :: (y ++ [newline]), c ≠ 0 := by
    intro c hc
    simp only [List.mem_append, List.mem_cons, List.not_mem_nil, or_false] at hc
    rcases hc with (hc | hc) | rfl | hc | rfl
    · exact ioctlIdString_ne_zero c hc
    · exact isDigit_ne_zero (hdx c hc)
    · decide
    · exact isDigit_ne_zero (hdy c hc)
    · decide
  unfold seekRequest
  rw [List.append_assoc _ behind beyond, cString_append hnul, if_pos (by simp [List.append_assoc])]
  have hsplit : ioctlIdString ++ x ++ comma :: (y ++ [newline]) ++ cString (behind ++ beyond) =
      ioctlIdString ++ (x ++ comma :: (y ++ newline :: cString (behind ++ beyond))) := by simp
  rw [hsplit, sscanfSeek_numbers hx hy hdx hdy hvx hvy (by simp [newline, isDigit])]

end Aesd
