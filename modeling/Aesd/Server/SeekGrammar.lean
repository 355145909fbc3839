import Aesd.Server.ReceiveBuffer

/-!
# What the server takes for a seek command

A line is a seek command if it is the identifying string, two numbers below `2 ^ 32` in decimal
digits with a comma between them, and at most a newline behind.  `sscanf` with `%d,%d` is more
liberal: it takes white space and signs in front of the numbers and any text behind them, it makes
32 bits of every number, it stops at a NUL, and it does not stop at the end of the buffer.

* `seekRequest_store`: the request does not depend on the memory behind a buffer with a NUL;
* `sscanfSeek_isSome`: the lines from which `sscanf` reads two numbers;
* `seek_grammar_iff`: exactly when the handler follows the grammar.
-/

namespace Aesd

open Scan

/-- `AESDCHAR_IOCSEEKTO:X,Y`, with an optional newline. -/
structure SeekLine (data x y : List UInt8) : Prop where
  line : data = ioctlIdString ++ (x ++ comma :: (y ++ [])) ∨
    data = ioctlIdString ++ (x ++ comma :: (y ++ [newline]))
  first_ne : x ≠ []
  second_ne : y ≠ []
  first_digits : ∀ c ∈ x, isDigit c = true
  second_digits : ∀ c ∈ y, isDigit c = true
  first_lt : digitsValue x < 2 ^ 32
  second_lt : digitsValue y < 2 ^ 32

/-- The handler that has received `data` into its zeroed buffer. -/
def Handler.receives (data beyond : List UInt8) : Handler :=
  Handler.resume true ⟨.recv, .zero, 0⟩ ⟨data.length, data⟩ beyond

/-- The handler treats what it has received by the grammar, whatever lies behind the buffer: the
request with the numbers of the line, or a write of everything; and `sscanf` stays inside. -/
structure FollowsGrammar (data : List UInt8) : Prop where
  ioctl : ∀ beyond s, (Handler.receives data beyond).call = some (.file (.ioctl s)) ↔
    ∃ x y, SeekLine data x y ∧ s.writeCmd.toNat = digitsValue x ∧
      s.writeCmdOffset.toNat = digitsValue y
  write : ∀ beyond, (¬ ∃ x y, SeekLine data x y) →
    (Handler.receives data beyond).call = some (.file (.write data))
  inside : ioctlIdString <+: data → 0 ∈ (Buffer.zero.store data).bytes

/-- `sscanf` reads two numbers from what stands behind the identifying string. -/
def ReadsTwo (s : List UInt8) : Prop :=
  (field s).digits ≠ [] ∧ (field s).rest.head? = some comma ∧
    (field (field s).rest.tail).digits ≠ []

/-- Bytes that begin with the identifying string leave room for a NUL in the buffer or bring one;
and if `sscanf` reads two numbers behind it, these are below `2 ^ 32` with nothing in front of
either, nothing or a newline behind, and no NUL anywhere. -/
def ReadPlainly (data : List UInt8) : Prop :=
  ioctlIdString <+: data →
    let s := cString (data.drop ioctlIdString.length)
    let first := field s
    let second := field first.rest.tail
    (data.length < bufferSize ∨ 0 ∈ data) ∧
      (ReadsTwo s → 0 ∉ data ∧ first.lead = [] ∧ second.lead = [] ∧
        digitsValue first.digits < 2 ^ 32 ∧ digitsValue second.digits < 2 ^ 32 ∧
        (second.rest = [] ∨ second.rest = [newline]))

instance (s : List UInt8) : Decidable (ReadsTwo s) := inferInstanceAs (Decidable (_ ∧ _ ∧ _))

instance (data : List UInt8) : Decidable (ReadPlainly data) :=
  inferInstanceAs (Decidable (_ → _ ∧ _))

/-! ### `sscanf` -/

theorem sscanfSeek_isSome (s : List UInt8) :
    (∃ q, sscanfSeek (ioctlIdString ++ s) = some q) ↔ ReadsTwo s := by
  unfold sscanfSeek ReadsTwo
  rw [List.take_left, List.drop_left, if_pos rfl]
  rcases scanInt_field s with ⟨⟨v, hv⟩, hne⟩ | ⟨hnone, hnil⟩
  · rw [hv]
    cases hrest : (field s).rest with
    | nil => simp
    | cons c rest =>
      by_cases hc : c = comma
      · subst hc
        rcases scanInt_field rest with ⟨⟨w, hw⟩, hne'⟩ | ⟨hnone, hnil⟩
        · simp [hw, hne, hne']
        · simp [hnone, hnil]
      · simp [hc]
  · simp [hnone, hnil]

/-! ### The buffer -/

section Buffer

variable {data : List UInt8}

theorem nul_mem_store (hlen : data.length ≤ bufferSize) :
    0 ∈ (Buffer.zero.store data).bytes ↔ data.length < bufferSize ∨ 0 ∈ data := by
  rw [Buffer.store_zero hlen, List.mem_append, List.mem_replicate]
  constructor
  · rintro (h | ⟨h, -⟩)
    · exact Or.inr h
    · exact Or.inl (by omega)
  · rintro (h | h)
    · exact Or.inr ⟨by omega, rfl⟩
    · exact Or.inl h

theorem prefix_store (hlen : data.length ≤ bufferSize) :
    (Buffer.zero.store data).bytes.take ioctlIdString.length = ioctlIdString ↔
      ioctlIdString <+: data := by
  rw [← strncmp_ioctlIdString, Buffer.strncmp_store_zero hlen]

/-- The request in a buffer with a NUL is that of the bytes behind the identifying string. -/
theorem seekRequest_store {s : List UInt8} (hlen : (ioctlIdString ++ s).length ≤ bufferSize)
    (hnul : 0 ∈ (Buffer.zero.store (ioctlIdString ++ s)).bytes) (beyond : List UInt8) :
    seekRequest (Buffer.zero.store (ioctlIdString ++ s)).bytes beyond =
      sscanfSeek (ioctlIdString ++ cString s) := by
  unfold seekRequest
  rw [if_pos ((prefix_store hlen).2 (List.prefix_append ..)), cString_append_of_mem hnul,
    Buffer.store_zero hlen, cString_append_replicate, cString_append ioctlIdString_ne_zero]

theorem seekRequest_eq_none (hlen : data.length ≤ bufferSize)
    (hpre : ¬ ioctlIdString <+: data) (beyond : List UInt8) :
    seekRequest (Buffer.zero.store data).bytes beyond = none :=
  if_neg fun h => hpre ((prefix_store hlen).1 h)

/-- The next call of the handler. -/
theorem receives_call (hpos : 1 ≤ data.length) (hlen : data.length ≤ bufferSize)
    (beyond : List UInt8) :
    (Handler.receives data beyond).call =
      match seekRequest (Buffer.zero.store data).bytes beyond with
      | some s => some (.file (.ioctl s))
      | none => some (.file (.write data)) := by
  have hgt : (0 : ℤ) < data.length := by omega
  have hrequest : Handler.request true (Buffer.zero.store data) beyond =
      seekRequest (Buffer.zero.store data).bytes beyond := if_pos rfl
  unfold Handler.receives Handler.resume
  simp only [if_pos hgt, Handler.received, hrequest]
  cases seekRequest (Buffer.zero.store data).bytes beyond with
  | none => simp [Handler.call, Buffer.store_take _ hlen]
  | some s => rfl

theorem receives_call_ioctl (hpos : 1 ≤ data.length) (hlen : data.length ≤ bufferSize)
    (beyond : List UInt8) (q : Seekto) :
    (Handler.receives data beyond).call = some (.file (.ioctl q)) ↔
      seekRequest (Buffer.zero.store data).bytes beyond = some q := by
  rw [receives_call hpos hlen]
  cases seekRequest (Buffer.zero.store data).bytes beyond <;> simp

theorem receives_call_write (hpos : 1 ≤ data.length) (hlen : data.length ≤ bufferSize)
    (beyond : List UInt8) (h : seekRequest (Buffer.zero.store data).bytes beyond = none) :
    (Handler.receives data beyond).call = some (.file (.write data)) := by
  rw [receives_call hpos hlen, h]

end Buffer

/-! ### The lines of the grammar -/

section Grammar

variable {data x y : List UInt8}

theorem SeekLine.is_prefix (h : SeekLine data x y) : ioctlIdString <+: data := by
  rcases h.line with rfl | rfl <;> exact List.prefix_append ..

/-- What stands behind the identifying string, with the end of the line. -/
theorem SeekLine.exists_end (h : SeekLine data x y) :
    ∃ e, (e = [] ∨ e = [newline]) ∧ data = ioctlIdString ++ (x ++ comma :: (y ++ e)) := by
  rcases h.line with h | h
  · exact ⟨[], Or.inl rfl, h⟩
  · exact ⟨[newline], Or.inr rfl, h⟩

theorem end_head {e : List UInt8} (h : e = [] ∨ e = [newline]) :
    ∀ c ∈ e.head?, isDigit c = false := by
  rcases h with rfl | rfl <;> simp [newline, isDigit]

theorem SeekLine.nul_notMem (h : SeekLine data x y) : 0 ∉ data := by
  obtain ⟨e, he, rfl⟩ := h.exists_end
  have hzero : ∀ c ∈ ioctlIdString ++ (x ++ comma :: (y ++ e)), c ≠ 0 := by
    intro c hc
    simp only [List.mem_append, List.mem_cons] at hc
    rcases hc with hc | hc | rfl | hc | hc
    · exact ioctlIdString_ne_zero c hc
    · exact isDigit_ne_zero (h.first_digits c hc)
    · decide
    · exact isDigit_ne_zero (h.second_digits c hc)
    · rcases he with rfl | rfl <;> simp [newline] at hc
      simp [hc]
  exact fun h0 => hzero 0 h0 rfl

/-- The fields of a line are its numbers. -/
theorem SeekLine.fields (h : SeekLine data x y) :
    ∃ e, (e = [] ∨ e = [newline]) ∧
      field (cString (data.drop ioctlIdString.length)) = ⟨[], x, comma :: (y ++ e)⟩ ∧
      field (y ++ e) = ⟨[], y, e⟩ := by
  obtain ⟨e, he, hdata⟩ := h.exists_end
  have hnul := h.nul_notMem
  rw [hdata, List.mem_append, not_or] at hnul
  refine ⟨e, he, ?_, field_of_digits h.second_ne h.second_digits (end_head he)⟩
  rw [hdata, List.drop_left, cString_eq_self.2 hnul.2]
  exact field_of_digits h.first_ne h.first_digits (by simp [comma, isDigit])

/-- A line of the grammar is recognised, in a buffer with a NUL. -/
theorem SeekLine.seekRequest (h : SeekLine data x y) (hlen : data.length ≤ bufferSize)
    (hnul : 0 ∈ (Buffer.zero.store data).bytes) (beyond : List UInt8) :
    seekRequest (Buffer.zero.store data).bytes beyond =
      some ⟨.ofNat (digitsValue x), .ofNat (digitsValue y)⟩ := by
  obtain ⟨e, he, rfl⟩ := h.exists_end
  have hzero := h.nul_notMem
  rw [List.mem_append, not_or] at hzero
  rw [seekRequest_store hlen hnul, cString_eq_self.2 hzero.2]
  exact sscanfSeek_numbers h.first_ne h.second_ne h.first_digits h.second_digits h.first_lt
    h.second_lt (end_head he)

/-- What is read plainly is a line of the grammar, with the numbers that are read. -/
theorem ReadPlainly.seekLine {s : List UInt8} (h : ReadPlainly (ioctlIdString ++ s))
    (hreads : ReadsTwo (cString s)) :
    SeekLine (ioctlIdString ++ s) (field (cString s)).digits
      (field (field (cString s)).rest.tail).digits := by
  have hplain := h (List.prefix_append ..)
  rw [List.drop_left] at hplain
  obtain ⟨hnul, hlead, hlead', hlt, hlt', hend⟩ := hplain.2 hreads
  obtain ⟨hne, hcomma, hne'⟩ := hreads
  have hself : cString s = s := cString_eq_self.2 fun h0 => hnul (List.mem_append_right _ h0)
  rw [hself] at hlead hlead' hlt hlt' hend hne hcomma hne' ⊢
  have hfirst := field_append s
  have hsecond := field_append (field s).rest.tail
  obtain ⟨rest, hrest⟩ : ∃ rest, (field s).rest = comma :: rest := by
    cases hr : (field s).rest with
    | nil => simp [hr] at hcomma
    | cons c rest =>
      obtain rfl : c = comma := by simpa [hr] using hcomma
      exact ⟨rest, rfl⟩
  rw [hlead, hrest, List.nil_append] at hfirst
  rw [hrest, List.tail_cons] at hlead' hlt' hend hne' hsecond ⊢
  rw [hlead', List.nil_append] at hsecond
  refine ⟨?_, hne, hne', field_digits_isDigit s, field_digits_isDigit rest, hlt, hlt'⟩
  rcases hend with hend | hend <;> rw [hend] at hsecond
  · exact Or.inl (by rw [hsecond, hfirst])
  · exact Or.inr (by rw [hsecond, hfirst])

/-- **The grammar.**  What is received and placed in the zeroed buffer is treated by the grammar
exactly if it is read plainly. -/
theorem seek_grammar_iff (data : List UInt8) (hpos : 1 ≤ data.length)
    (hlen : data.length ≤ bufferSize) : FollowsGrammar data ↔ ReadPlainly data := by
  constructor
  · rintro ⟨hioctl, -, hinside⟩ hpre
    have hnul := hinside hpre
    refine ⟨(nul_mem_store hlen).1 hnul, fun hreads => ?_⟩
    -- the request that is made is a line of the grammar
    obtain ⟨s, rfl⟩ := hpre
    rw [List.drop_left] at hreads
    obtain ⟨q, hq⟩ := (sscanfSeek_isSome _).2 hreads
    rw [← seekRequest_store hlen hnul []] at hq
    obtain ⟨x, y, hline, -, -⟩ :=
      (hioctl [] q).1 ((receives_call_ioctl hpos hlen [] q).2 hq)
    obtain ⟨e, he, hfield, hfield'⟩ := hline.fields
    rw [hfield, List.tail_cons, hfield']
    exact ⟨hline.nul_notMem, rfl, rfl, hline.first_lt, hline.second_lt, he⟩
  · intro hplain
    have hnul : ioctlIdString <+: data → 0 ∈ (Buffer.zero.store data).bytes :=
      fun hpre => (nul_mem_store hlen).2 (hplain hpre).1
    -- a request is made for a line of the grammar only
    have hline : ∀ beyond q, seekRequest (Buffer.zero.store data).bytes beyond = some q →
        ∃ x y, SeekLine data x y := by
      intro beyond q hq
      by_cases hpre : ioctlIdString <+: data
      · obtain ⟨s, rfl⟩ := hpre
        rw [seekRequest_store hlen (hnul (List.prefix_append ..))] at hq
        exact ⟨_, _, hplain.seekLine ((sscanfSeek_isSome _).1 ⟨q, hq⟩)⟩
      · rw [seekRequest_eq_none hlen hpre] at hq
        simp at hq
    refine ⟨fun beyond q => ?_, fun beyond hno => ?_, hnul⟩
    · rw [receives_call_ioctl hpos hlen]
      constructor
      · intro hq
        obtain ⟨x, y, hxy⟩ := hline beyond q hq
        rw [hxy.seekRequest hlen (hnul hxy.is_prefix), Option.some.injEq] at hq
        subst hq
        exact ⟨x, y, hxy, UInt32.toNat_ofNat_of_lt' hxy.first_lt,
          UInt32.toNat_ofNat_of_lt' hxy.second_lt⟩
      · rintro ⟨x, y, hxy, hx, hy⟩
        rw [hxy.seekRequest hlen (hnul hxy.is_prefix), ← hx, ← hy]
        simp
    · refine receives_call_write hpos hlen beyond ?_
      cases hq : seekRequest (Buffer.zero.store data).bytes beyond with
      | none => rfl
      | some q => exact absurd (hline beyond q hq) hno

end Grammar

/-- `AESDCHAR_IOCSEEKTO:0,2` and a newline. -/
theorem seek_grammar_line :
    FollowsGrammar (ioctlIdString ++ [48, comma, 50, newline]) :=
  (seek_grammar_iff _ (by decide) (by decide)).2 (by decide +kernel)

/-- `AESDCHAR_IOCSEEKTO:-1,2` is no line of the grammar, and the handler asks for command
4294967295. -/
theorem seek_grammar_minus_one : ¬ FollowsGrammar (ioctlIdString ++ [45, 49, comma, 50]) := by
  intro h
  have hcall : (Handler.receives (ioctlIdString ++ [45, 49, comma, 50]) []).call =
      some (.file (.ioctl ⟨4294967295, 2⟩)) := by rfl
  obtain ⟨x, y, hline, -, -⟩ := (h.ioctl [] _).1 hcall
  obtain ⟨e, -, he⟩ := hline.exists_end
  obtain ⟨c, cs, rfl⟩ := List.exists_cons_of_ne_nil hline.first_ne
  have hc : (45 : UInt8) = c := by
    rw [List.append_cancel_left_eq, List.cons_append, List.cons.injEq] at he
    exact he.1
  have hdigit := hline.first_digits c List.mem_cons_self
  rw [← hc] at hdigit
  exact absurd hdigit (by decide)

end Aesd
