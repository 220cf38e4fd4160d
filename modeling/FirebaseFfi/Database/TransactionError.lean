import FirebaseFfi.Database.Transaction

namespace Database
open Cbor Dart

/-- `'${toObject()}'` for a value of the package. -/
def display (package : CborPackage) (c : CborValue) : Option Bytes :=
  match package.toObject c with
  | .ok object => interpolate package.toString object
  | .error _ => none

/-- The text begins with an ASCII character. -/
def AsciiStart (text : Bytes) : Prop := ∃ b rest, text = b :: rest ∧ b.toNat < 128

/-- What is assumed of the cbor package and of Dart's toString. The package
decodes whole well-formed items only, each as RFC 8949 says. A text string is
the object it holds. A list of integers prints with a bracket in front and at
least three characters for each element, and an integer in decimal digits with
its sign. Everything else prints as some ASCII text, and a tag either has such
a text of its own or leaves the text of what it tags. -/
structure Conforms (package : CborPackage) : Prop where
  decode : ∀ bytes c, package.decode bytes = .ok c → ∃ x : Item, x.WF ∧ x.bytes = bytes ∧
    c = cborDecode x
  string : ∀ s object, package.toObject (.string s) = .ok object → object = .string s
  bytes : ∀ b text, display package (.bytes b) = some text →
    ∃ rest, text = 0x5b :: rest ∧ 3 * b.length ≤ text.length
  natural : ∀ (n : Nat) text, display package (.int n) = some text →
    ∃ d rest, text = d :: rest ∧ 0x30 ≤ d.toNat ∧ d.toNat ≤ 0x39
  negative : ∀ (n : Nat) text, n < 2 ^ 64 → display package (.int (-1 - n)) = some text →
    ∃ rest, text = 0x2d :: rest ∧ 0 < rest.length ∧ rest.length ≤ 20
  float : ∀ d text, display package (.float d) = some text → AsciiStart text
  list : ∀ cs text, display package (.list cs) = some text → AsciiStart text
  map : ∀ ces text, display package (.map ces) = some text → AsciiStart text
  bool : ∀ b text, display package (.bool b) = some text → AsciiStart text
  simple : ∀ n text, display package (.simple n) = some text → AsciiStart text
  null : ∀ text, display package .null = some text → AsciiStart text
  undefined : ∀ text, display package .undefined = some text → AsciiStart text
  tagged : ∀ t c text, display package (.tagged t c) = some text →
    AsciiStart text ∨ display package c = some text

section Display

variable {package : CborPackage} (h : Conforms package)

include h

theorem display_string {s text : Bytes} (ht : display package (.string s) = some text) :
    text = s := by
  unfold display at ht
  cases ho : package.toObject (.string s) with
  | error e =>
    rw [ho] at ht
    cases ht
  | ok object =>
    rw [ho, h.string s object ho] at ht
    cases ht
    rfl

theorem display_int {neg : Bool} {n : Nat} {text : Bytes} (hn : n < 2 ^ 64)
    (ht : display package (.int (intValue neg n)) = some text) : AsciiStart text := by
  cases neg with
  | false =>
    obtain ⟨d, rest, rfl, _, hd⟩ := h.natural n text ht
    exact ⟨d, rest, rfl, by omega⟩
  | true =>
    obtain ⟨rest, rfl, _⟩ := h.negative n text hn ht
    exact ⟨_, rest, rfl, by decide⟩

theorem display_prim {w : Width} {n : Nat} {text : Bytes}
    (ht : display package (primValue w n) = some text) : AsciiStart text := by
  unfold primValue at ht
  split at ht
  · exact h.float _ _ ht
  · split_ifs at ht
    · exact h.bool _ _ ht
    · exact h.bool _ _ ht
    · exact h.null _ ht
    · exact h.undefined _ ht
    · exact h.simple _ _ ht

/-- The text of an item begins with an ASCII character or is shorter than it. -/
theorem display_bound {x : Item} (hx : x.WF) {text : Bytes}
    (ht : display package (cborDecode x) = some text) :
    AsciiStart text ∨ text.length < x.bytes.length := by
  induction hx with
  | @int neg w n hn =>
    exact .inl (display_int h (Nat.lt_of_lt_of_le hn w.limit_le) ht)
  | @str isText s _ =>
    cases isText with
    | true =>
      rw [display_string h ht]
      exact .inr (content_length true s)
    | false =>
      obtain ⟨rest, rfl, _⟩ := h.bytes _ text ht
      exact .inl ⟨_, rest, rfl, by decide⟩
  | array => exact .inl (h.list _ _ ht)
  | map => exact .inl (h.map _ _ ht)
  | @tag w t x _ _ ih =>
    rcases h.tagged t _ text ht with hascii | hinner
    · exact .inl hascii
    · rcases ih hinner with hascii | hlen
      · exact .inl hascii
      · refine .inr ?_
        simp only [Item.bytes, List.length_append]
        omega
  | prim => exact .inl (display_prim h ht)

/-- The bounded payload is the whole text, or a part of one that is too long. -/
def PartOf (payload message : Bytes) : Prop :=
  ∃ tail, message = payload ++ tail ∧
    (tail = [] ∨ 2 ^ 32 ≤ message.length ∧ payload.length < 2 ^ 32)

theorem negative_other {w : Width} {n : Nat} (hn : n < w.limit) {message : Bytes}
    (hpart : PartOf (Item.int true w n).bytes message) :
    display package (.int (intValue true n)) ≠ some message := by
  intro ht
  obtain ⟨rest, rfl, hpos, hlen⟩ := h.negative n _ (Nat.lt_of_lt_of_le hn w.limit_le) ht
  obtain ⟨tail, heq, hcut⟩ := hpart
  have hinitial := initial_toNat 1 w n (by decide) hn
  simp only [Item.bytes, intMajor, if_true, head, List.cons_append, List.cons.injEq] at heq
  rw [← heq.1] at hinitial
  have h13 : w.info n = 13 := by
    have : (0x2d : UInt8).toNat = 45 := rfl
    omega
  have htiny : w = .tiny := by cases w <;> simp [Width.info] at h13 ⊢
  subst htiny
  rcases hcut with rfl | hlong
  · have hnone : rest = [] := by simpa [Width.size, be] using heq.2
    rw [hnone] at hpos
    exact absurd hpos (by decide)
  · simp only [List.length_cons] at hlong
    omega

theorem bytes_other {s : Str} (hs : s.WF) {message : Bytes} (hnul : 0 ∉ message)
    (hpart : PartOf (Item.str false s).bytes message) :
    display package (.bytes s.content) ≠ some message := by
  intro ht
  obtain ⟨rest, rfl, hlen⟩ := h.bytes _ _ ht
  obtain ⟨tail, heq, hcut⟩ := hpart
  cases s with
  | plain w b =>
    have hinitial := initial_toNat 2 w b.length (by decide) hs
    simp only [Item.bytes, strMajor, Bool.false_eq_true, if_false, head, List.cons_append,
      List.cons.injEq] at heq
    rw [← heq.1] at hinitial
    have h27 : w.info b.length = 27 := by
      have : (0x5b : UInt8).toNat = 91 := rfl
      omega
    have height : w = .eight := by
      cases w with
      | tiny =>
        have : b.length < 24 := hs
        simp only [Width.info] at h27
        omega
      | eight => rfl
      | _ => simp [Width.info] at h27
    subst height
    -- Without a zero byte the length is beyond any the text could have.
    have hlarge : 256 ^ 7 ≤ b.length := by
      by_contra hsmall
      have hzero : (0 : UInt8) ∈ be 8 b.length := zero_mem_be (by omega)
      apply hnul
      rw [heq.2]
      simp [Width.size, hzero]
    simp only [Str.content, List.length_cons, heq.2, List.length_append] at hlen
    rcases hcut with rfl | ⟨-, hshort⟩
    · simp only [be_length, Width.size, List.length_nil] at hlen
      omega
    · simp only [Item.bytes, List.length_append, head_length] at hshort
      omega
  | chunked cs =>
    simp only [Item.bytes, List.cons_append, List.cons.injEq] at heq
    exact absurd heq.1 (by decide)

/-- A text without NUL is not the text of the item that it begins with. -/
theorem display_other {x : Item} (hx : x.WF) {message : Bytes} (hnul : 0 ∉ message)
    (hpart : PartOf x.bytes message) : display package (cborDecode x) ≠ some message := by
  intro ht
  have hpart' := hpart
  obtain ⟨tail, heq, -⟩ := hpart
  have hle : x.bytes.length ≤ message.length := by simp [heq]
  rcases display_bound h hx ht with ⟨b, rest, hb, hascii⟩ | hshort
  · obtain ⟨b', bs, hb', -, hmajor⟩ := hx.not_break tail
    rw [← heq, hb, List.cons.injEq] at hb'
    rw [← hb'.1] at hmajor
    cases hx with
    | @int neg w n hn =>
      cases neg with
      | true => exact negative_other h hn hpart' ht
      | false =>
        obtain ⟨d, rest', hd, hlo, hhi⟩ := h.natural n message ht
        rw [hb, List.cons.injEq] at hd
        rw [← hd.1] at hlo hhi
        simp only [Item.major, intMajor, Bool.false_eq_true, if_false] at hmajor
        omega
    | @str isText s hs =>
      cases isText with
      | true =>
        rw [display_string h ht] at hle
        have := content_length true s
        omega
      | false => exact bytes_other h hs hnul hpart' ht
    | _ =>
      simp only [Item.major] at hmajor
      omega
  · omega

/-- A text that is decoded as null is not the one that is reported instead. -/
theorem null_other {x : Item} (hx : x.WF)
    (hnull : package.toObject (cborDecode x) = .ok .null) :
    ¬ PartOf x.bytes (ascii "transaction failed") := by
  rintro ⟨tail, heq, -⟩
  obtain ⟨b, bs, hb, -, hmajor⟩ := hx.not_break tail
  rw [← heq] at hb
  have ht : b = 0x74 := by
    have hhead : (ascii "transaction failed").head? = some 0x74 := by decide
    rw [hb] at hhead
    exact Option.some.inj hhead
  subst ht
  have hthree : x.major = 3 := hmajor.symm
  cases x with
  | str isText s =>
    cases isText with
    | true => cases h.string _ _ hnull
    | false => cases hthree
  | int neg w n => cases neg <;> cases hthree
  | _ => cases hthree

end Display

theorem partOf_bounded (message : Bytes) : PartOf (boundedPayload message) message := by
  unfold boundedPayload
  split
  · exact ⟨[], by simp, .inl rfl⟩
  · refine ⟨message.drop (message.length % 2 ^ 32), (List.take_append_drop _ _).symm, ?_⟩
    by_cases hlong : 2 ^ 32 ≤ message.length
    · refine .inr ⟨hlong, ?_⟩
      rw [List.length_take]
      omega
    · left
      rw [List.drop_eq_nil_iff]
      omega

/-- The port handler returns, and the future is completed once, with an
exception that carries the code and the text the SDK ended with. -/
def Reported (package : CborPackage) (handler : Handler) (s : Session) (now : UInt64)
    (code : Int64) (message : Bytes) : Prop :=
  let r := onMessage package handler s (fdbPostBuffer now (-code) message)
  r.2 = none ∧ r.1.completions = [.exception code message]

/-- A session whose handler has not aborted and whose future is pending. -/
structure Session.Pending (s : Session) : Prop where
  listening : s.listening = true
  aborted : s.aborted = false
  completions : s.completions = []

theorem onMessage_failure (package : CborPackage) (handler : Handler) {s : Session}
    (hs : s.Pending) (now : UInt64) {code : Int64} (hcode : 0 < code ∧ code.toInt < 2 ^ 31)
    (message : Bytes) :
    onMessage package handler s (fdbPostBuffer now (-code) message) =
      onFailure package { s with listening := false } (-code)
        (fdbPostBuffer now (-code) message) := by
  have hneg : -code < 0 := by
    have hpos := hcode.1
    have hlo := code.toInt_lt
    simp only [Int64.lt_iff_toInt_lt, Int64.toInt_zero, Int64.toInt_neg, Int.bmod_def] at hpos ⊢
    omega
  rw [onMessage, hs.listening, seqOf_post]
  simp [hneg]

/-- No text the SDK may fail with is reported. It is decoded as CBOR, which
throws and leaves the future pending, or yields another text. -/
theorem failure_never_reported {package : CborPackage} (h : Conforms package) (handler : Handler)
    {s : Session} (hs : s.Pending) (now : UInt64) {code : Int64}
    (hcode : 0 < code ∧ code.toInt < 2 ^ 31) {message : Bytes} (hnul : 0 ∉ message) :
    ¬ Reported package handler s now code message := by
  rintro ⟨hreturns, hcompleted⟩
  rw [onMessage_failure package handler hs now hcode] at hreturns hcompleted
  simp only [onFailure, hs.aborted, Bool.false_eq_true, if_false] at hreturns hcompleted
  by_cases hempty : message = []
  · subst hempty
    rw [decodeSnapshotValue_empty] at hcompleted
    simp [failureText, isNull, Session.complete, hs.completions] at hcompleted
    exact absurd hcompleted (by decide)
  · rw [decodeSnapshotValue_post package now _ hempty] at hreturns hcompleted
    cases hc : package.decode (boundedPayload message) with
    | error e =>
      rw [hc] at hreturns
      cases hreturns
    | ok c =>
      obtain ⟨x, hx, hbytes, rfl⟩ := h.decode _ c hc
      have hpart := partOf_bounded message
      rw [← hbytes] at hpart
      cases ho : package.toObject (cborDecode x) with
      | error e =>
        rw [hc] at hreturns
        simp [bind, Except.bind, ho] at hreturns
      | ok object =>
        rw [hc] at hreturns hcompleted
        simp only [bind, Except.bind, ho] at hreturns hcompleted
        cases ht : failureText package object with
        | none =>
          rw [ht] at hreturns
          cases hreturns
        | some text =>
          rw [ht] at hcompleted
          simp only [Session.complete, hs.completions, List.isEmpty_nil, if_true,
            List.cons.injEq, Completion.exception.injEq, and_true] at hcompleted
          obtain ⟨-, rfl⟩ := hcompleted
          unfold failureText at ht
          split at ht
          · next hnull =>
            have hobject : object = .null := by
              cases object with
              | null => rfl
              | _ => cases hnull
            rw [hobject] at ho
            cases ht
            exact null_other h hx ho hpart
          · refine display_other h hx hnul hpart ?_
            rw [display, ho]
            exact ht

def decimal (n : UInt8) : Bytes := (Nat.toDigits 10 n.toNat).map fun c => UInt8.ofNat c.toNat

/-- The elements of a list of bytes, as Dart prints them between brackets. -/
def commaSeparated : Bytes → Bytes
  | [] => []
  | [n] => decimal n
  | n :: m :: ns => decimal n ++ ascii ", " ++ commaSeparated (m :: ns)

theorem decimal_length (n : UInt8) : 0 < (decimal n).length := by
  rw [decimal, List.length_map]
  exact Nat.length_toDigits_pos

theorem commaSeparated_length (b : Bytes) : 3 * b.length ≤ (commaSeparated b).length + 2 := by
  induction b using commaSeparated.induct with
  | case1 => simp [commaSeparated]
  | case2 n =>
    have := decimal_length n
    simp only [commaSeparated, List.length_singleton]
    omega
  | case3 n m ns ih =>
    have := decimal_length n
    have hcomma : (ascii ", ").length = 2 := rfl
    simp only [commaSeparated, List.length_append, List.length_cons, hcomma] at ih ⊢
    omega

/-- A package as far as byte strings whose head is a single byte. -/
def byteStringPackage : CborPackage where
  decode
    | [] => .error .other
    | b :: rest =>
      if b = UInt8.ofNat (0x40 + rest.length) ∧ rest.length < 24 then .ok (.bytes rest)
      else .error .other
  encode _ := []
  toObject
    | .bytes b => .ok (.uint8List b)
    | _ => .error .other
  equal _ _ := false
  toString
    | .uint8List b => some (0x5b :: commaSeparated b ++ [0x5d])
    | _ => none

theorem byteString_decode {b : Bytes} (h : b.length < 24) :
    byteStringPackage.decode (UInt8.ofNat (0x40 + b.length) :: b) = .ok (.bytes b) :=
  if_pos ⟨rfl, h⟩

theorem byteStringPackage_conforms : Conforms byteStringPackage where
  decode bytes c hc := by
    cases bytes with
    | nil => cases hc
    | cons b rest =>
      simp only [byteStringPackage] at hc
      split_ifs at hc with hb
      cases hc
      refine ⟨.str false (.plain .tiny rest), .str hb.2, ?_, rfl⟩
      simp [Item.bytes, strMajor, head, Width.info, Width.size, be, hb.1]
  string s object ho := by cases ho
  bytes b text ht := by
    cases ht
    refine ⟨_, rfl, ?_⟩
    have := commaSeparated_length b
    simp only [List.length_append, List.length_cons, List.length_nil]
    omega
  natural n text ht := by cases ht
  negative n text hn ht := by cases ht
  float d text ht := by cases ht
  list cs text ht := by cases ht
  map ces text ht := by cases ht
  bool b text ht := by cases ht
  simple n text ht := by cases ht
  null text ht := by cases ht
  undefined text ht := by cases ht
  tagged t c text ht := by cases ht

/-- A text that is not an item. The port handler throws. -/
theorem boom_not_reported :
    ¬ Reported byteStringPackage (fun _ => .ok .abort) (.start 1) 0 6 (ascii "boom") :=
  failure_never_reported byteStringPackage_conforms _ ⟨rfl, rfl, rfl⟩ 0 (by decide) (by decide)

/-- A text that is a byte string of sixteen bytes. The caller is told these as a
list of numbers, and nothing else. -/
theorem permission_denied_replaced :
    (onMessage byteStringPackage (fun _ => .ok .abort) (.start 1)
        (fdbPostBuffer 0 (-8) (ascii "Permission denied"))).1.completions =
      [.exception 8 (ascii
        "[101, 114, 109, 105, 115, 115, 105, 111, 110, 32, 100, 101, 110, 105, 101, 100]")] ∧
    ¬ Reported byteStringPackage (fun _ => .ok .abort) (.start 1) 0 8
      (ascii "Permission denied") := by
  have hpayload : byteStringPackage.decode (boundedPayload (ascii "Permission denied")) =
      .ok (.bytes (ascii "ermission denied")) := by
    have htaken : boundedPayload (ascii "Permission denied") =
        UInt8.ofNat (0x40 + (ascii "ermission denied").length) :: ascii "ermission denied" := by
      decide
    rw [htaken]
    exact byteString_decode (by decide)
  have hcompleted : (onMessage byteStringPackage (fun _ => .ok .abort) (.start 1)
      (fdbPostBuffer 0 (-8) (ascii "Permission denied"))).1.completions =
      [.exception 8 (0x5b :: commaSeparated (ascii "ermission denied") ++ [0x5d])] := by
    rw [onMessage_failure byteStringPackage _ ⟨rfl, rfl, rfl⟩ 0 (by decide), onFailure,
      decodeSnapshotValue_post byteStringPackage 0 _ (by decide), hpayload]
    rfl
  refine ⟨hcompleted, ?_⟩
  rintro ⟨-, hreported⟩
  rw [hcompleted] at hreported
  have htext := (Completion.exception.inj (List.cons.inj hreported).1).2
  exact absurd htext (by decide)

end Database
