import Fusey.Chunks.Retries

/-!
Contract: `GetRange` over HTTP object stores (`internal/chunks/broker.go`,
`internal/chunks/s3.go`).

Owns:
- the replies that a server may give to a request with a `Range` header: the part
  of the range that exists, the whole object, or an error;
- `S3Store.GetRange` over any client that reports the statuses outside 2xx as
  errors;
- that the bytes returned without an error are the requested ones exactly when the
  range lies inside the object, or the object is the range and comes whole.

Which attempt of `BrokerStore.GetRange` returns is decided by its retries.
-/

set_option autoImplicit false

namespace Fusey

open GoInt BrokerStore

/-! ### Replies to a range -/

/-- The first and the last position of a `Range` header of one range; `none` if it is
not a valid one, which a server ignores. -/
def byteRange (header : Text) : Option (Nat × Nat) :=
  if "bytes=".toList <+: header then
    let spec := header.drop 6
    let first := spec.takeWhile Char.isDigit
    match spec.dropWhile Char.isDigit with
    | '-' :: last =>
        if first ≠ [] ∧ last ≠ [] ∧ last.all Char.isDigit = true ∧
            GoFmt.valueOf first ≤ GoFmt.valueOf last then
          some (GoFmt.valueOf first, GoFmt.valueOf last)
        else none
    | _ => none
  else none

/-- The replies of a server that holds the object. -/
inductive RangeReply (object : Bytes) (header : Text) : HttpResponse → Prop where
  /-- 206 with the range, cut at the end of the object. -/
  | ranged {first last : Nat} (valid : byteRange header = some (first, last))
      (satisfiable : first < object.length) (contentLength : Option Nat) :
      RangeReply object header
        ⟨206, contentLength, .bytes ((object.drop first).take (last + 1 - first))⟩
  /-- 200 with the whole object. -/
  | whole (contentLength : Option Nat) :
      RangeReply object header ⟨200, contentLength, .bytes object⟩
  /-- 416, or any other error status. -/
  | refused {resp : HttpResponse} (error : 400 ≤ resp.status) : RangeReply object header resp

/-- The result is the `length` bytes of the object at `offset`. -/
def IsRange (object : Bytes) (offset length : Int) (result : Bytes) : Prop :=
  (result.length : Int) = length ∧ result = (object.drop offset.toNat).take length.toNat

/-- A part of the object is served only from inside it, and the whole object only
if it is the range. -/
def ServesRange (object : Bytes) (offset length : Int) (resp : HttpResponse) : Prop :=
  (resp.status = 206 → offset + length ≤ object.length) ∧
    (resp.status = 200 → length = object.length ∧ (offset = 0 ∨ length = 0))

/-! ### The header -/

/-- The range that a server reads from the header. -/
theorem byteRange_rangeHeader {offset : Int} (low : 0 ≤ offset) (length : Int) :
    byteRange (rangeHeader offset length) =
      if offset ≤ wrap64 (wrap64 (offset + length) - 1) then
        some (offset.toNat, (wrap64 (wrap64 (offset + length) - 1)).toNat)
      else none := by
  obtain ⟨start, rfl⟩ := Int.eq_ofNat_of_zero_le low
  have digits : ∀ c ∈ GoFmt.decimal start, c.isDigit = true := fun _ =>
    GoFmt.isDigit_of_mem_decimal
  have begins : "bytes=".toList <+: rangeHeader start length := List.prefix_append _ _
  have isSpec : (rangeHeader start length).drop 6 = GoFmt.decimal start ++
      '-' :: GoFmt.signedDecimal (wrap64 (wrap64 (start + length) - 1)) := rfl
  generalize wrap64 (wrap64 (start + length) - 1) = stop at isSpec ⊢
  unfold byteRange
  have first : (GoFmt.decimal start ++ '-' :: GoFmt.signedDecimal stop).takeWhile Char.isDigit =
      GoFmt.decimal start := by
    rw [List.takeWhile_append_of_pos digits, List.takeWhile_cons_of_neg (by decide),
      List.append_nil]
  have rest : (GoFmt.decimal start ++ '-' :: GoFmt.signedDecimal stop).dropWhile Char.isDigit =
      '-' :: GoFmt.signedDecimal stop := by
    rw [List.dropWhile_append_of_pos digits, List.dropWhile_cons_of_neg (by decide)]
  simp only [if_pos begins, isSpec, first, rest]
  cases stop with
  | ofNat last =>
      have all : (GoFmt.decimal last).all Char.isDigit = true :=
        List.all_eq_true.mpr fun _ => GoFmt.isDigit_of_mem_decimal
      simp only [GoFmt.signedDecimal, GoFmt.valueOf_decimal, ne_eq, GoFmt.decimal_ne_nil,
        not_false_eq_true, all, true_and, Int.ofNat_eq_natCast, Nat.cast_le, Int.toNat_natCast]
  | negSucc last =>
      rw [if_neg (by
        rintro ⟨-, -, all, -⟩
        cases (List.all_eq_true.mp all) '-' List.mem_cons_self), if_neg (by omega)]

/-- A header that a server may serve in part asks for the range as it is. -/
theorem byteRange_requested {offset length : Int} (low : 0 ≤ offset) (nonneg : 0 ≤ length)
    (offsetFits : IsInt64 offset) (lengthFits : IsInt64 length) {first last : Nat}
    (valid : byteRange (rangeHeader offset length) = some (first, last)) :
    first = offset.toNat ∧ last + 1 - first = length.toNat ∧ 1 ≤ length := by
  rw [byteRange_rangeHeader low] at valid
  obtain ⟨_, _⟩ := offsetFits
  obtain ⟨_, _⟩ := lengthFits
  split_ifs at valid with ordered
  obtain ⟨rfl, rfl⟩ := Prod.mk.inj (Option.some.inj valid)
  have positive : 1 ≤ length := by
    unfold wrap64 at ordered
    omega
  rcases wrap64_stop low positive (by omega) (by omega) with plain | ⟨-, negative⟩
  · rw [plain]
    exact ⟨rfl, by omega, positive⟩
  · omega

/-! ### One reply -/

/-- The bytes of a reply are the requested ones exactly if it serves the range. -/
theorem isRange_reply_iff {object : Bytes} {offset length : Int} (low : 0 ≤ offset)
    (nonneg : 0 ≤ length) (offsetFits : IsInt64 offset) (lengthFits : IsInt64 length)
    {resp : HttpResponse} (reply : RangeReply object (rangeHeader offset length) resp)
    (succeeds : resp.Succeeds) {result : Bytes} (read : resp.body = .bytes result) :
    IsRange object offset length result ↔ ServesRange object offset length resp := by
  cases reply with
  | ranged valid satisfiable contentLength =>
      obtain ⟨isFirst, isLength, positive⟩ :=
        byteRange_requested low nonneg offsetFits lengthFits valid
      rw [isLength, isFirst] at read
      have isResult : (object.drop offset.toNat).take length.toNat = result :=
        HttpBody.bytes.inj read
      have size : ((object.drop offset.toNat).take length.toNat).length =
          min length.toNat (object.length - offset.toNat) := by
        rw [List.length_take, List.length_drop]
      constructor
      · rintro ⟨exactly, -⟩
        rw [← isResult, size] at exactly
        exact ⟨fun _ => by omega, nofun⟩
      · rintro ⟨inside, -⟩
        have inside := inside rfl
        refine ⟨?_, isResult.symm⟩
        rw [← isResult, size]
        omega
  | whole contentLength =>
      have isResult : object = result := HttpBody.bytes.inj read
      subst isResult
      constructor
      · rintro ⟨exactly, same⟩
        refine ⟨nofun, fun _ => ⟨exactly.symm, ?_⟩⟩
        have size := congrArg List.length same
        rw [List.length_take, List.length_drop] at size
        omega
      · rintro ⟨-, isWhole⟩
        obtain ⟨exactly, start | empty⟩ := isWhole rfl
        · refine ⟨exactly.symm, ?_⟩
          rw [start, exactly, Int.toNat_zero, List.drop_zero, Int.toNat_natCast, List.take_length]
        · have none : object = [] := List.length_eq_zero_iff.mp (by omega)
          rw [none, empty]
          exact ⟨rfl, by simp⟩
  | refused error =>
      unfold HttpResponse.Succeeds at succeeds
      omega

/-! ### The two stores -/

/-- `S3Store.GetRange`. `getObject` gives the response that ends the call of the
client, which reports the statuses outside 2xx as errors. -/
def s3GetRange (getObject : Key → Text → Option HttpResponse) (p id : Key) (offset length : Int) :
    Option Bytes :=
  match getObject (p ++ id) (rangeHeader offset length) with
  | none => none
  | some resp =>
      if 200 ≤ resp.status ∧ resp.status < 300 then
        match resp.body with
        | .bytes data => some data
        | .broken => none
        | _ => some []
      else none

theorem storageData_of_bytes {resp : HttpResponse} {data : Bytes} (read : resp.body = .bytes data) :
    storageData true (some resp) = data := by
  obtain ⟨status, contentLength, body⟩ := resp
  cases read
  rfl

theorem RangeReply.body_of_succeeds {object : Bytes} {header : Text} {resp : HttpResponse}
    (reply : RangeReply object header resp) (low : resp.status < 400) :
    resp.Succeeds ∧ ∃ result, resp.body = .bytes result := by
  cases reply with
  | ranged valid satisfiable contentLength => exact ⟨Or.inr (Or.inr (Or.inr rfl)), _, rfl⟩
  | whole contentLength => exact ⟨Or.inl rfl, _, rfl⟩
  | refused error => omega

/-- An error status serves no range, and asks for nothing. -/
theorem RangeReply.servesRange_of_refused {object : Bytes} {offset length : Int}
    {resp : HttpResponse} (error : 400 ≤ resp.status) : ServesRange object offset length resp :=
  ⟨fun isPart => by omega, fun isWhole => by omega⟩

/-- For every object, range and reply that a server may give: `S3Store.GetRange`
returns only the requested bytes exactly if the reply serves the range. For every
script of such replies: `BrokerStore.GetRange` does so exactly if the reply of the
attempt that returns serves it. -/
theorem get_range_exact_iff (object : Bytes) {offset length : Int} (low : 0 ≤ offset)
    (nonneg : 0 ≤ length) (offsetFits : IsInt64 offset) (lengthFits : IsInt64 length) :
    (∀ p id getObject resp, getObject (p ++ id) (rangeHeader offset length) = some resp →
      RangeReply object (rangeHeader offset length) resp →
      ((∀ result, s3GetRange getObject p id offset length = some result →
          IsRange object offset length result) ↔
        ServesRange object offset length resp)) ∧
    ∀ (store : BrokerStore) (id : Key) (script : Script),
      (∀ i resp, (script i).storage = some resp →
        RangeReply object (rangeHeader offset length) resp) →
      ((∀ result, (store.getRange script.send id offset length []).2 = .ok result →
          IsRange object offset length result) ↔
        ∀ k resp, (TwoPhase.getRange id offset length).Returns store script k →
          (script k).storage = some resp → ServesRange object offset length resp) := by
  refine ⟨?_, ?_⟩
  · intro p id getObject resp replied reply
    unfold s3GetRange
    rw [replied]
    dsimp only
    rcases Nat.lt_or_ge resp.status 400 with small | error
    · obtain ⟨succeeds, result, read⟩ := reply.body_of_succeeds small
      have inRange : 200 ≤ resp.status ∧ resp.status < 300 := by
        unfold HttpResponse.Succeeds at succeeds
        omega
      rw [if_pos inRange, read]
      rw [← isRange_reply_iff low nonneg offsetFits lengthFits reply succeeds read]
      constructor
      · intro each
        exact each result rfl
      · rintro isRange _ ⟨⟩
        exact isRange
    · rw [if_neg (by omega)]
      exact iff_of_true nofun (RangeReply.servesRange_of_refused error)
  · intro store id script replies
    have ran := (TwoPhase.getRange id offset length).run_ok_iff store script
    constructor
    · intro each k resp returns stored
      rcases Nat.lt_or_ge resp.status 400 with small | error
      · obtain ⟨succeeds, result, read⟩ := (replies k resp stored).body_of_succeeds small
        refine (isRange_reply_iff low nonneg offsetFits lengthFits (replies k resp stored) succeeds
          read).mp (each result ((ran result).mpr ⟨k, returns, ?_⟩))
        rw [stored]
        exact (storageData_of_bytes read).symm
      · exact RangeReply.servesRange_of_refused error
    · intro serves result returned
      obtain ⟨k, returns, isData⟩ := (ran result).mp returned
      obtain ⟨resp, stored, succeeds⟩ := Replies.storage_of_completes returns.completes
      obtain ⟨-, data, read⟩ := (replies k resp stored).body_of_succeeds (by
        unfold HttpResponse.Succeeds at succeeds
        omega)
      rw [stored] at isData
      rw [isData.trans (storageData_of_bytes read)]
      exact (isRange_reply_iff low nonneg offsetFits lengthFits (replies k resp stored) succeeds
        read).mpr (serves k resp returns stored)

/-- A range inside the object, served in part through both stores. -/
theorem get_range_exact_iff_inside :
    let store : BrokerStore := { baseURL := "http://b".toList, authValue := "t".toList }
    let part : HttpResponse := ⟨206, some 2, .bytes [2, 3]⟩
    let script : Script := fun _ => ⟨some { status := 200, body := .url "u".toList }, some part⟩
    s3GetRange (fun _ _ => some part) [] "c".toList 1 2 = some [2, 3] ∧
      (∀ result, s3GetRange (fun _ _ => some part) [] "c".toList 1 2 = some result →
        IsRange [1, 2, 3] 1 2 result) ∧
      (store.getRange script.send "c".toList 1 2 []).2 = .ok [2, 3] ∧
      ∀ result, (store.getRange script.send "c".toList 1 2 []).2 = .ok result →
        IsRange [1, 2, 3] 1 2 result := by
  intro store part script
  have valid : byteRange (rangeHeader 1 2) = some (1, 2) := by decide +kernel
  have reply : RangeReply [1, 2, 3] (rangeHeader 1 2) part := .ranged valid (by decide) (some 2)
  have serves : ServesRange [1, 2, 3] 1 2 part :=
    ⟨fun _ => (by decide), fun isWhole => (by cases isWhole)⟩
  obtain ⟨overS3, overBroker⟩ :=
    @get_range_exact_iff [1, 2, 3] 1 2 (by decide) (by decide) (by decide) (by decide)
  refine ⟨rfl, (overS3 [] "c".toList _ part rfl reply).mpr serves, rfl, ?_⟩
  refine (overBroker store "c".toList script fun i resp stored => ?_).mpr fun k resp _ stored => ?_
  · cases stored
    exact reply
  · cases stored
    exact serves

/-- A range that ends past the object comes back short, and an empty range, whose
header is inverted, comes back as the whole object. -/
theorem wrong_ranges_returned :
    let store : BrokerStore := { baseURL := "http://b".toList, authValue := "t".toList }
    let short : HttpResponse := ⟨206, some 1, .bytes [3]⟩
    let whole : HttpResponse := ⟨200, some 3, .bytes [1, 2, 3]⟩
    let script : HttpResponse → Script := fun resp _ =>
      ⟨some { status := 200, body := .url "u".toList }, some resp⟩
    (RangeReply [1, 2, 3] (rangeHeader 2 5) short ∧
        s3GetRange (fun _ _ => some short) [] "c".toList 2 5 = some [3] ∧
        (store.getRange (script short).send "c".toList 2 5 []).2 = .ok [3] ∧
        ¬ IsRange [1, 2, 3] 2 5 [3]) ∧
      RangeReply [1, 2, 3] (rangeHeader 0 0) whole ∧
        s3GetRange (fun _ _ => some whole) [] "c".toList 0 0 = some [1, 2, 3] ∧
        (store.getRange (script whole).send "c".toList 0 0 []).2 = .ok [1, 2, 3] ∧
        ¬ IsRange [1, 2, 3] 0 0 [1, 2, 3] := by
  have valid : byteRange (rangeHeader 2 5) = some (2, 6) := by decide +kernel
  refine ⟨⟨.ranged valid (by decide) (some 1), rfl, rfl, ?_⟩, .whole (some 3), rfl, rfl, ?_⟩
  · rintro ⟨size, -⟩
    exact absurd size (by decide)
  · rintro ⟨size, -⟩
    exact absurd size (by decide)

end Fusey
