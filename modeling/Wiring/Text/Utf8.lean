/-!
# UTF-8

Bytes are decoded from the left. A sequence that cannot be the start of a
character is a defect: it is *invalid* when a byte contradicts what came
before, *incomplete* when the bytes end too early. Lenient decoding writes one
replacement character for each defect and goes on behind it.
-/

namespace Wiring.Text.Utf8

/-- What is wrong with the bytes at the front. -/
inductive Defect
  /-- So many bytes can be skipped before decoding goes on. -/
  | invalid (length : Nat)
  /-- The bytes end inside a character. -/
  | incomplete
deriving DecidableEq, Repr

def isContinuation (b : Nat) : Bool :=
  128 ≤ b && b < 192

/-- Whether `b` may follow the leading byte `a` of a longer sequence: this
excludes overlong forms, surrogates and points past the last. -/
def mayFollow (a b : Nat) : Bool :=
  if a == 224 then 160 ≤ b && b < 192
  else if a == 237 then 128 ≤ b && b < 160
  else if a == 240 then 144 ≤ b && b < 192
  else if a == 244 then 128 ≤ b && b < 144
  else isContinuation b

/-- The second byte of two. -/
def decodeTwo (a : Nat) : List UInt8 → Except Defect (Char × List UInt8)
  | [] => .error .incomplete
  | b :: rest =>
    if isContinuation b.toNat then
      .ok (Char.ofNat ((a - 192) * 64 + (b.toNat - 128)), rest)
    else .error (.invalid 1)

/-- The second and third byte of three. -/
def decodeThree (a : Nat) : List UInt8 → Except Defect (Char × List UInt8)
  | [] => .error .incomplete
  | b :: rest =>
    if !mayFollow a b.toNat then .error (.invalid 1)
    else match rest with
      | [] => .error .incomplete
      | c :: rest =>
        if isContinuation c.toNat then
          .ok (Char.ofNat ((a - 224) * 4096 + (b.toNat - 128) * 64 + (c.toNat - 128)), rest)
        else .error (.invalid 2)

/-- The second, third and fourth byte of four. -/
def decodeFour (a : Nat) : List UInt8 → Except Defect (Char × List UInt8)
  | [] => .error .incomplete
  | b :: rest =>
    if !mayFollow a b.toNat then .error (.invalid 1)
    else match rest with
      | [] => .error .incomplete
      | c :: rest =>
        if !isContinuation c.toNat then .error (.invalid 2)
        else match rest with
          | [] => .error .incomplete
          | d :: rest =>
            if isContinuation d.toNat then
              .ok (Char.ofNat ((a - 240) * 262144 + (b.toNat - 128) * 4096
                + (c.toNat - 128) * 64 + (d.toNat - 128)), rest)
            else .error (.invalid 3)

/-- Reads one character from the front of `lead :: rest`. -/
def decodeChar (lead : UInt8) (rest : List UInt8) : Except Defect (Char × List UInt8) :=
  if lead.toNat < 128 then .ok (Char.ofNat lead.toNat, rest)
  else if lead.toNat < 194 then .error (.invalid 1)
  else if lead.toNat < 224 then decodeTwo lead.toNat rest
  else if lead.toNat < 240 then decodeThree lead.toNat rest
  else if lead.toNat < 245 then decodeFour lead.toNat rest
  else .error (.invalid 1)

theorem length_of_decodeTwo {a : Nat} {bytes rest : List UInt8} {c : Char}
    (h : decodeTwo a bytes = .ok (c, rest)) : rest.length ≤ bytes.length := by
  unfold decodeTwo at h
  repeat' split at h
  all_goals simp_all

theorem length_of_decodeThree {a : Nat} {bytes rest : List UInt8} {c : Char}
    (h : decodeThree a bytes = .ok (c, rest)) : rest.length ≤ bytes.length := by
  unfold decodeThree at h
  repeat' split at h
  all_goals simp_all
  all_goals omega

theorem length_of_decodeFour {a : Nat} {bytes rest : List UInt8} {c : Char}
    (h : decodeFour a bytes = .ok (c, rest)) : rest.length ≤ bytes.length := by
  unfold decodeFour at h
  repeat' split at h
  all_goals simp_all
  all_goals omega

theorem length_of_decodeChar {lead : UInt8} {bytes rest : List UInt8} {c : Char}
    (h : decodeChar lead bytes = .ok (c, rest)) : rest.length ≤ bytes.length := by
  unfold decodeChar at h
  split at h
  · simp_all
  · split at h
    · contradiction
    · split at h
      · exact length_of_decodeTwo h
      · split at h
        · exact length_of_decodeThree h
        · split at h
          · exact length_of_decodeFour h
          · contradiction

/-- Decodes everything, or reports the first defect and the index at which it
starts; `start` is the index of the first byte given. -/
def decodeFrom (start : Nat) (bytes : List UInt8) : Except (Nat × Defect) (List Char) :=
  match bytes with
  | [] => .ok []
  | lead :: rest =>
    match _step : decodeChar lead rest with
    | .error defect => .error (start, defect)
    | .ok (c, after) =>
      (decodeFrom (start + (rest.length + 1 - after.length)) after).map (c :: ·)
termination_by bytes.length
decreasing_by
  have := length_of_decodeChar _step
  simp only [List.length_cons]
  omega

def decode (bytes : List UInt8) : Except (Nat × Defect) (List Char) :=
  decodeFrom 0 bytes

/-- Decodes with the replacement character in place of every defect. -/
def decodeLenient (bytes : List UInt8) : List Char :=
  match bytes with
  | [] => []
  | lead :: rest =>
    match _step : decodeChar lead rest with
    | .ok (c, after) => c :: decodeLenient after
    | .error (.invalid n) => '\uFFFD' :: decodeLenient (rest.drop (n - 1))
    | .error .incomplete => ['\uFFFD']
termination_by bytes.length
decreasing_by
  · have := length_of_decodeChar _step
    simp only [List.length_cons]
    omega
  · simp only [List.length_drop, List.length_cons]
    omega

def encode (s : List Char) : List UInt8 :=
  s.flatMap String.utf8EncodeChar

/-- Number of bytes of a text. -/
def size (s : List Char) : Nat :=
  s.foldl (fun n c => n + c.utf8Size) 0

end Wiring.Text.Utf8
