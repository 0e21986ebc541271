import Stplr.Equiv.Form
import Stplr.Resp

/-!
# RESP commands are read as they were sent

What a reader returns depends on the bytes that its reads deliver, not on where they are cut: a line
ends at its line feed (`readUntil_of_flatten`) and a payload has its length (`readExact_of_flatten`).
A header line is a sign and digits, so it has no line feed and nothing of it is trimmed, and a payload
is taken by its length, so it may hold anything.  `read_commands` follows by induction over the
commands and their arguments.
-/

namespace Stplr

open List

namespace Resp

/-! ### Cuts do not matter -/

variable {post : List UInt8} {r : Reader} {b : UInt8} {n : ℕ}

theorem readUntil_of_flatten {stop : UInt8} {line : List UInt8} (hline : stop ∉ line)
    (h : r.flatten = line ++ stop :: post) :
    ∃ r', readUntil stop r = (line ++ [stop], r') ∧ r'.flatten = post := by
  induction r generalizing line with
  | nil => simp at h
  | cons chunk rest ih =>
    rw [flatten_cons, append_eq_append_iff] at h
    rw [readUntil]
    have hall : ∀ l : List UInt8, stop ∉ l → ∀ b ∈ l, decide (b ≠ stop) = true :=
      fun l hl b hb => decide_eq_true fun h => hl (h ▸ hb)
    obtain ⟨mid, rfl, hrest⟩ | ⟨mid, rfl, hpost⟩ := h
    · -- the line goes on after the chunk, or begins its line feed there
      rw [mem_append, not_or] at hline
      obtain ⟨r', hr', hflat⟩ := ih hline.2 hrest
      have hdrop : chunk.dropWhile (fun b => decide (b ≠ stop)) = [] :=
        dropWhile_eq_nil_iff.mpr (hall chunk hline.1)
      rw [hdrop]
      dsimp only
      rw [hr']
      exact ⟨r', by rw [append_assoc], hflat⟩
    · cases mid with
      | nil =>
        obtain ⟨r', hr', hflat⟩ := ih (not_mem_nil) (by simpa using hpost.symm)
        have hdrop : (line ++ []).dropWhile (fun b => decide (b ≠ stop)) = [] := by
          rw [append_nil]
          exact dropWhile_eq_nil_iff.mpr (hall line hline)
        rw [hdrop]
        dsimp only
        rw [hr']
        exact ⟨r', by simp, hflat⟩
      | cons b mid =>
        obtain ⟨rfl, rfl⟩ := cons.inj hpost
        have hdrop : (line ++ stop :: mid).dropWhile (fun b => decide (b ≠ stop)) = stop :: mid := by
          rw [dropWhile_append_of_pos (hall line hline), dropWhile_cons_of_neg (by simp)]
        have htake : (line ++ stop :: mid).takeWhile (fun b => decide (b ≠ stop)) = line := by
          rw [takeWhile_append_of_pos (hall line hline), takeWhile_cons_of_neg (by simp),
            append_nil]
        rw [hdrop, htake]
        exact ⟨mid :: rest, rfl, rfl⟩

variable {data : List UInt8}

theorem readExact_of_flatten (h : r.flatten = data ++ post) :
    ∃ r', readExact data.length r = some (data, r') ∧ r'.flatten = post := by
  induction r generalizing data with
  | nil =>
    obtain ⟨rfl, rfl⟩ := append_eq_nil_iff.mp h.symm
    exact ⟨[], rfl, rfl⟩
  | cons chunk rest ih =>
    rw [flatten_cons, append_eq_append_iff] at h
    rw [readExact]
    obtain ⟨mid, rfl, hrest⟩ | ⟨mid, rfl, hpost⟩ := h
    · by_cases hle : (chunk ++ mid).length ≤ chunk.length
      · obtain rfl : mid = [] := by simpa using hle
        rw [if_pos hle, append_nil, take_length, drop_length]
        exact ⟨[] :: rest, rfl, hrest⟩
      · obtain ⟨r', hr', hflat⟩ := ih hrest
        rw [if_neg hle, length_append, Nat.add_sub_cancel_left, hr']
        exact ⟨r', rfl, hflat⟩
    · rw [if_pos (by simp), take_left, drop_left]
      exact ⟨mid :: rest, rfl, hpost.symm⟩

/-! ### Header lines -/

/-- The text of a number has digits only. -/
theorem isDigit_of_mem (h : b ∈ utf8Bytes (toString n)) : 48 ≤ b.toNat ∧ b.toNat ≤ 57 := by
  obtain ⟨c, hc, hb⟩ := mem_flatMap.mp h
  rw [Nat.toString_eq_ofList_toDigits, String.toList_ofList] at hc
  obtain ⟨hbyte, hlow, hhigh⟩ :=
    utf8EncodeChar_digit (Nat.isDigit_of_mem_toDigits (by decide) (by decide) hc)
  rw [hbyte, mem_singleton] at hb
  rw [hb, UInt8.toNat_ofNat']
  omega

theorem notMem_digits (hb : b.toNat < 48) : b ∉ utf8Bytes (toString n) :=
  fun h => absurd (isDigit_of_mem h).1 (by omega)

/-- A header is a line of its own, and nothing of it is trimmed. -/
theorem readLine_of_flatten {sign : UInt8} (n : ℕ) (hlf : sign ≠ lf) (hcr : sign ≠ cr)
    (h : r.flatten = sign :: utf8Bytes (toString n) ++ crlf ++ post) :
    ∃ r', readLine r = some (sign :: utf8Bytes (toString n), r') ∧ r'.flatten = post := by
  have hsplit : r.flatten = (sign :: utf8Bytes (toString n) ++ [cr]) ++ lf :: post := by
    rw [h]
    simp [crlf]
  have hnot : lf ∉ sign :: utf8Bytes (toString n) ++ [cr] := by
    simp only [cons_append, mem_cons, mem_append, not_mem_nil, or_false, not_or]
    exact ⟨hlf.symm, notMem_digits (by decide), by decide⟩
  obtain ⟨r', hr', hflat⟩ := readUntil_of_flatten hnot hsplit
  refine ⟨r', ?_, hflat⟩
  -- the last byte of the header is its sign or a digit
  have hlast : ∀ hne : sign :: utf8Bytes (toString n) ≠ [],
      ¬isEol ((sign :: utf8Bytes (toString n)).getLast hne) = true := by
    intro hne
    obtain hs | hd := mem_cons.mp (getLast_mem hne)
    · rw [hs, isEol]
      simp [hlf, hcr]
    · have hdigit := isDigit_of_mem hd
      intro heol
      obtain heq | heq := of_decide_eq_true heol
      · rw [heq] at hdigit
        exact absurd hdigit (by decide)
      · rw [heq] at hdigit
        exact absurd hdigit (by decide)
  have htrim : (sign :: utf8Bytes (toString n) ++ [cr] ++ [lf]).rdropWhile isEol
      = sign :: utf8Bytes (toString n) := by
    rw [rdropWhile_concat_pos _ _ _ (by decide), rdropWhile_concat_pos _ _ _ (by decide)]
    exact (rdropWhile_eq_self_iff (p := isEol)).mpr hlast
  unfold readLine
  rw [hr']
  dsimp only
  rw [if_neg (append_ne_nil_of_right_ne_nil _ (cons_ne_nil _ _)), htrim]

@[simp] theorem s_utf8Bytes (t : String) : s (utf8Bytes t) = t := fromUtf8Lossy_utf8Bytes t

theorem parseLen_toString (hn : n < 2 ^ 64) : parseLen (utf8Bytes (toString n)) = n := by
  rw [parseLen, s_utf8Bytes, parseUsize_toString hn]
  rfl

/-! ### Commands -/

theorem readBulk_of_flatten (hlen : data.length ≤ maxAlloc)
    (h : r.flatten = bulk (some data) ++ post) :
    ∃ r', readBulk r = .ok (data, r') ∧ r'.flatten = post := by
  have hn : parseLen (utf8Bytes (toString data.length)) = data.length :=
    parseLen_toString (hlen.trans_lt (by decide))
  have hhead : r.flatten = dollar :: utf8Bytes (toString data.length) ++ crlf
      ++ (data ++ (crlf ++ post)) := by
    rw [h]
    simp [bulk]
  obtain ⟨r₁, h₁, hflat₁⟩ := readLine_of_flatten data.length (by decide) (by decide) hhead
  obtain ⟨r₂, h₂, hflat₂⟩ := readExact_of_flatten hflat₁
  obtain ⟨r₃, h₃, hflat₃⟩ := readExact_of_flatten hflat₂
  refine ⟨r₃, ?_, hflat₃⟩
  rw [readBulk, h₁]
  dsimp only
  rw [if_pos rfl, hn, if_neg (by omega), h₂]
  have h₃ : readExact 2 r₂ = some (crlf, r₃) := h₃
  dsimp only
  rw [h₃]

theorem readArgs_of_flatten {args : List (List UInt8)} (hlen : ∀ arg ∈ args, arg.length ≤ maxAlloc)
    (h : r.flatten = (args.flatMap fun arg => bulk (some arg)) ++ post) :
    ∃ r', readArgs args.length r = .ok (args, r') ∧ r'.flatten = post := by
  induction args generalizing r with
  | nil => exact ⟨r, rfl, h⟩
  | cons arg args ih =>
    rw [flatMap_cons, append_assoc] at h
    obtain ⟨r₁, h₁, hflat₁⟩ := readBulk_of_flatten (hlen arg (mem_cons_self ..)) h
    obtain ⟨r₂, h₂, hflat₂⟩ := ih (fun a ha => hlen a (mem_cons_of_mem _ ha)) hflat₁
    refine ⟨r₂, ?_, hflat₂⟩
    rw [length_cons, readArgs, h₁]
    show (readArgs args.length r₁).bind _ = _
    rw [h₂]
    rfl

/-- A command is read from its encoding, and what follows is left. -/
theorem readCommand_of_flatten {cmd : List (List UInt8)} (hrep : Representable cmd)
    (h : r.flatten = encode cmd ++ post) :
    ∃ r', readCommand r = .ok (cmd, r') ∧ r'.flatten = post := by
  have hn : parseLen (utf8Bytes (toString cmd.length)) = cmd.length := by
    refine parseLen_toString ?_
    have := hrep.1
    unfold vecSize maxAlloc at this
    omega
  have hhead : r.flatten = star :: utf8Bytes (toString cmd.length) ++ crlf
      ++ ((cmd.flatMap fun arg => bulk (some arg)) ++ post) := by
    rw [h]
    simp [encode, arrayHeader]
  obtain ⟨r₁, h₁, hflat₁⟩ := readLine_of_flatten cmd.length (by decide) (by decide) hhead
  obtain ⟨r₂, h₂, hflat₂⟩ := readArgs_of_flatten hrep.2 hflat₁
  refine ⟨r₂, ?_, hflat₂⟩
  rw [readCommand, h₁]
  dsimp only
  rw [if_pos rfl, hn, if_neg (Nat.not_lt.mpr hrep.1), h₂]

theorem readCommand_of_flatten_nil (h : r.flatten = []) : readCommand r = .error .eof := by
  have huntil : (readUntil lf r).1 = [] := by
    induction r with
    | nil => rfl
    | cons chunk rest ih =>
      obtain ⟨rfl, hrest⟩ := append_eq_nil_iff.mp h
      exact ih hrest
  rw [readCommand, readLine, huntil]
  rfl

/-- **Commands are decoded exactly**, wherever the stream is cut into reads: reading the encodings of
some commands, one after the other, yields these commands and then the end of the stream. -/
theorem read_commands (cmds : List (List (List UInt8)))
    (hrep : ∀ cmd ∈ cmds, cmd ≠ [] ∧ Representable cmd) (r : Reader)
    (h : r.flatten = cmds.flatMap encode) : Yields r cmds := by
  induction cmds generalizing r with
  | nil => exact readCommand_of_flatten_nil h
  | cons cmd cmds ih =>
    obtain ⟨r', hr', hflat⟩ := readCommand_of_flatten (hrep cmd (mem_cons_self ..)).2 h
    exact ⟨r', hr', ih (fun c hc => hrep c (mem_cons_of_mem _ hc)) r' hflat⟩

/-- A command with an argument that looks like a header, and one with an empty argument, in reads that
are cut inside a line end and inside that argument. -/
def cutReads : Reader :=
  [[42, 50, 13], [10, 36, 49, 13, 10, 71, 13, 10, 36, 52, 13, 10, 42, 49], [13, 10, 13, 10, 42, 50],
    [13, 10, 36, 49, 13, 10, 80, 13, 10, 36, 48, 13, 10, 13, 10]]

theorem read_commands_cutReads : Yields cutReads [[[71], [42, 49, 13, 10]], [[80], []]] :=
  read_commands _ (by decide) cutReads (by decide)

end Resp

end Stplr
