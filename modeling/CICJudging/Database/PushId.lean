import CICJudging.Library.Positional
import CICJudging.Library.Transition
import CICJudging.Database.KeyOrder

/-! The keys of `childByAutoId`: eight characters for the milliseconds of the server's time,
as the device reckons it, and twelve random ones, which are counted up when two keys are
asked for in the same millisecond. -/
namespace CICJudging

open Transition Positional

def pushChars : List Char :=
  "-0123456789ABCDEFGHIJKLMNOPQRSTUVWXYZ_abcdefghijklmnopqrstuvwxyz".toList

/-- One code unit, or a surrogate pair. -/
def codeUnits (c : Char) : NSString :=
  if c.toNat < 0x10000 then [UInt16.ofNat c.toNat]
  else
    [UInt16.ofNat (0xD800 + (c.toNat - 0x10000) / 0x400),
      UInt16.ofNat (0xDC00 + (c.toNat - 0x10000) % 0x400)]

def utf16 (text : List Char) : NSString := text.flatMap codeUnits

/-- `characterAtIndex` -/
def pushChar (index : Fin 64) : Char := pushChars.getD index '-'

/-- `(long long)` of a double: the fraction is dropped. -/
def toLongLong (x : ℚ) : Int := x.num.tdiv x.den

/-- The loop that fills `timeStampChars`, last place first. `now % 64` has the sign of `now`,
and `characterAtIndex` raises at a negative index. -/
def timeStampChars : Nat → Int → Option (List (Fin 64))
  | 0, _ => some []
  | count + 1, now =>
      if now.tmod 64 < 0 then none
      else (timeStampChars count (now.tdiv 64)).map (· ++ [Fin.ofNat 64 (now.tmod 64).toNat])

/-- The static variables of `get`. -/
structure FNextPushId where
  lastPushTime : Int
  lastRandChars : List (Fin 64)
  length_eq : lastRandChars.length = 12

def FNextPushId.start : FNextPushId := ⟨0, List.replicate 12 0, by simp⟩

section Clock

-- The double that arithmetic gives for a number.
variable (toDouble : ℚ → ℚ)

def toMillis (currentTime : ℚ) : Int := toLongLong (toDouble (currentTime * 1000))

/-- The new key. `random` is what `arc4random() % 64` gives; the count goes out of the array
when all twelve characters are the last one. -/
def FNextPushId.get (s : FNextPushId) (currentTime : ℚ) (random : Fin 12 → Fin 64) :
    Option (List Char × FNextPushId) :=
  let now := toMillis toDouble currentTime
  let after : Option FNextPushId :=
    if now ≠ s.lastPushTime then some ⟨now, List.ofFn random, List.length_ofFn⟩
    else
      match h : increment 63 0 (· + 1) s.lastRandChars 12 with
      | none => none
      | some chars => some ⟨now, chars, (lt_of_increment (by decide) h).1.trans s.length_eq⟩
  (timeStampChars 8 now).bind fun time =>
    after.map fun after => ((time ++ after.lastRandChars).map pushChar, after)

/-- A device, with the keys it has given out, oldest first. `last` is not in the code: what
the variables held at the last key, which a restart forgets. -/
structure AutoIds where
  offset : ℚ
  generator : FNextPushId
  keys : List String
  last : Option FNextPushId

def AutoIds.start : AutoIds := ⟨0, .start, [], none⟩

/-- `serverTime`, at a reading of the device's clock. -/
def AutoIds.serverTime (s : AutoIds) (clock : ℚ) : ℚ := toDouble (clock + s.offset)

/-- What bears on the keys: the app starts, a connection is made and its handshake brings
the server's time in milliseconds, a key is asked for. The clock may show anything. -/
inductive AutoIdEvent where
  | launch
  | handleTimestamp (clock timestamp : ℚ)
  | childByAutoId (clock : ℚ) (random : Fin 12 → Fin 64)

def nextAutoId (s : AutoIds) : AutoIdEvent → Option AutoIds
  | .launch => some { s with offset := 0, generator := .start }
  | .handleTimestamp clock timestamp =>
      let timestampDeltaMs := toDouble (timestamp - toDouble (clock * 1000))
      some { s with offset := toDouble (timestampDeltaMs / 1000) }
  | .childByAutoId clock random =>
      (s.generator.get toDouble (s.serverTime toDouble clock) random).map fun (key, generator) =>
        { s with generator, keys := s.keys ++ [String.ofList key], last := some generator }

/-- The server's time is after 1970 and its milliseconds have eight digits. -/
def InEra (s : AutoIds) : AutoIdEvent → Prop
  | .childByAutoId clock _ =>
      let now := toMillis toDouble (s.serverTime toDouble clock)
      0 < now ∧ now < 64 ^ 8
  | _ => True

/-- The server's time is later than at the last key, or it is the same millisecond and
either the app still runs or the random characters happen to be larger. -/
def KeepsForward (s : AutoIds) : AutoIdEvent → Prop
  | .childByAutoId clock random =>
      let now := toMillis toDouble (s.serverTime toDouble clock)
      match s.last with
      | none => True
      | some last =>
          last.lastPushTime < now ∨
            last.lastPushTime = now ∧
              (s.generator.lastPushTime = now ∨ last.lastRandChars < List.ofFn random)
  | _ => True

end Clock

section Decide

variable (toDouble : ℚ → ℚ) (s : AutoIds) (event : AutoIdEvent)

instance : Decidable (InEra toDouble s event) := by
  cases event <;> unfold InEra <;> infer_instance

instance : Decidable (KeepsForward toDouble s event) := by
  cases event <;> unfold KeepsForward
  case childByAutoId => cases s.last <;> infer_instance
  all_goals infer_instance

end Decide

theorem codeUnits_ne_nil (c : Char) : codeUnits c ≠ [] := by
  unfold codeUnits
  split_ifs <;> exact List.cons_ne_nil _ _

theorem valid_toNat (c : Char) : c.toNat < 0xD800 ∨ 0xDFFF < c.toNat ∧ c.toNat < 0x110000 := c.valid

/-- The first unit tells whether there is a second one: no character is a surrogate. -/
theorem codeUnits_append_inj {c d : Char} {rest other : NSString}
    (h : codeUnits c ++ rest = codeUnits d ++ other) : c = d ∧ rest = other := by
  have hc := valid_toNat c
  have hd := valid_toNat d
  unfold codeUnits at h
  split_ifs at h with hSmall hOther hOther
  all_goals
    simp only [List.cons_append, List.nil_append, List.cons.injEq, ← UInt16.toNat_inj,
      UInt16.toNat_ofNat'] at h
  · exact ⟨Char.toNat_inj.mp (by omega), h.2⟩
  · omega
  · omega
  · exact ⟨Char.toNat_inj.mp (by omega), h.2.2⟩

theorem utf16_injective : Function.Injective utf16 := by
  intro first
  induction first with
  | nil =>
      intro second h
      cases second with
      | nil => rfl
      | cons d second => exact absurd (List.append_eq_nil_iff.mp h.symm).1 (codeUnits_ne_nil d)
  | cons c first ih =>
      intro second h
      cases second with
      | nil => exact absurd (List.append_eq_nil_iff.mp h).1 (codeUnits_ne_nil c)
      | cons d second =>
          obtain ⟨rfl, hRest⟩ := codeUnits_append_inj h
          rw [ih hRest]

/-- The order in which the children of a node come. -/
def keyOrder (first second : String) : Ordering :=
  compareKey (.name (utf16 first.toList)) (.name (utf16 second.toList))

instance : Std.TransCmp keyOrder where
  eq_swap := compareKey_swap _ _
  isLE_trans := compareKey_isLE_trans

instance : IsTrans String fun first second => keyOrder first second = .lt :=
  ⟨fun _ _ _ => Std.TransCmp.lt_trans⟩

@[simp] theorem keyOrder_self (key : String) : keyOrder key key = .eq := Std.ReflCmp.compare_self

theorem utf16_map_pushChar (chars : List (Fin 64)) :
    utf16 (chars.map pushChar) = chars.map fun i => UInt16.ofNat (pushChar i).toNat := by
  have hUnits : ∀ i, codeUnits (pushChar i) = [UInt16.ofNat (pushChar i).toNat] := by
    decide +kernel
  rw [utf16, List.flatMap_map, List.map_eq_flatMap]
  exact congrArg (chars.flatMap ·) (funext hUnits)

theorem pushChar_lt : ∀ i j : Fin 64, i < j →
    UInt16.ofNat (pushChar i).toNat < UInt16.ofNat (pushChar j).toNat := by
  decide +kernel

theorem timeStampChars_natCast (count now : Nat) :
    timeStampChars count now = some (radixDigits count now) := by
  induction count generalizing now with
  | zero => rfl
  | succ count ih =>
      have hDigit : (now : Int).tmod 64 = (now % 64 : Nat) := rfl
      have hRest : (now : Int).tdiv 64 = (now / 64 : Nat) := rfl
      rw [timeStampChars, hDigit, hRest, ih, if_neg (by omega)]
      rfl

namespace FNextPushId

/-- The places of the characters of the last key. -/
def chars (s : FNextPushId) : List (Fin 64) := radixDigits 8 s.lastPushTime.toNat ++ s.lastRandChars

theorem length_chars (s : FNextPushId) : s.chars.length = 20 := by
  rw [chars, List.length_append, length_radixDigits, s.length_eq]

def key (s : FNextPushId) : String := String.ofList (s.chars.map pushChar)

def Fits (s : FNextPushId) : Prop := 0 < s.lastPushTime ∧ s.lastPushTime < 64 ^ 8

/-- By the millisecond and then by the random characters. -/
def Before (first second : FNextPushId) : Prop :=
  first.lastPushTime < second.lastPushTime ∨
    first.lastPushTime = second.lastPushTime ∧ first.lastRandChars < second.lastRandChars

/-- A new millisecond and new characters, or the same one and the next characters. -/
def Advances (s : FNextPushId) (random : Fin 12 → Fin 64) (after : FNextPushId) : Prop :=
  s.lastPushTime ≠ after.lastPushTime ∧ after.lastRandChars = List.ofFn random ∨
    s.lastPushTime = after.lastPushTime ∧ s.lastRandChars < after.lastRandChars

variable {first second : FNextPushId}

theorem before_trichotomy (first second : FNextPushId) :
    first.Before second ∨ first.key = second.key ∨ second.Before first := by
  rcases lt_trichotomy first.lastPushTime second.lastPushTime with hTime | hTime | hTime
  · exact Or.inl (Or.inl hTime)
  · rcases lt_trichotomy first.lastRandChars second.lastRandChars with hChars | hChars | hChars
    · exact Or.inl (Or.inr ⟨hTime, hChars⟩)
    · exact Or.inr (Or.inl (by rw [key, key, chars, chars, hTime, hChars]))
    · exact Or.inr (Or.inr (Or.inr ⟨hTime.symm, hChars⟩))
  · exact Or.inr (Or.inr (Or.inl hTime))

theorem Before.chars_lt (h : first.Before second) (hFirst : first.Fits) (hSecond : second.Fits) :
    first.chars < second.chars := by
  rcases h with hTime | ⟨hSame, hChars⟩
  · have hPos := hFirst.1
    have hFits := hSecond.2
    exact append_lt_append (by simp) (radixDigits_lt_radixDigits (by omega) (by omega)) _ _
  · rw [chars, chars, hSame]
    exact List.append_left_lt hChars

theorem Before.keyOrder_lt (h : first.Before second) (hFirst : first.Fits)
    (hSecond : second.Fits) : keyOrder first.key second.key = .lt := by
  have hUnits := List.map_lt pushChar_lt (h.chars_lt hFirst hSecond)
  rw [← utf16_map_pushChar, ← utf16_map_pushChar] at hUnits
  have hLong : ∀ s : FNextPushId, 11 < (utf16 s.key.toList).length := fun s => by
    rw [key, String.toList_ofList, utf16_map_pushChar, List.length_map, length_chars]
    decide
  refine (compareKey_of_long (hLong first) (hLong second)).mpr ?_
  simpa only [key, String.toList_ofList] using hUnits

/-- Keys are in the order in which the children of a node come if they are in the order
of their times. -/
theorem keyOrder_key_iff (hFirst : first.Fits) (hSecond : second.Fits) :
    keyOrder first.key second.key = .lt ↔ first.Before second := by
  refine ⟨fun hLess => ?_, fun hBefore => hBefore.keyOrder_lt hFirst hSecond⟩
  rcases before_trichotomy first second with hBefore | hSame | hAfter
  · exact hBefore
  · rw [hSame, keyOrder_self] at hLess
    cases hLess
  · have hSwap : keyOrder first.key second.key = (keyOrder second.key first.key).swap :=
      Std.OrientedCmp.eq_swap
    rw [hSwap, hAfter.keyOrder_lt hSecond hFirst] at hLess
    cases hLess

variable {toDouble : ℚ → ℚ} {s after : FNextPushId} {currentTime : ℚ} {random : Fin 12 → Fin 64}
  {newKey : List Char}

theorem get_cases (h : s.get toDouble currentTime random = some (newKey, after))
    (hPos : 0 < toMillis toDouble currentTime) :
    String.ofList newKey = after.key ∧ after.lastPushTime = toMillis toDouble currentTime ∧
      s.Advances random after := by
  obtain ⟨now, hNow⟩ := Int.eq_ofNat_of_zero_le hPos.le
  simp only [get, hNow, timeStampChars_natCast, Option.bind_some, Option.map_eq_some_iff,
    Prod.mk.injEq] at h
  obtain ⟨_, hAfter, rfl, rfl⟩ := h
  rw [hNow]
  split_ifs at hAfter with hNew
  · cases hAfter
    exact ⟨rfl, rfl, Or.inl ⟨Ne.symm hNew, rfl⟩⟩
  · split at hAfter
    · cases hAfter
    · next chars hChars =>
        cases hAfter
        exact ⟨rfl, rfl, Or.inr ⟨(not_not.mp hNew).symm, (lt_of_increment (by decide) hChars).2⟩⟩

/-- When the new key comes after the last one, which was given out by the same variables or
before a restart. -/
theorem Advances.before_iff {last : FNextPushId} (h : s.Advances random after) (hFits : after.Fits)
    (hLast : s.lastPushTime = 0 ∨ last = s) :
    last.Before after ↔
      last.lastPushTime < after.lastPushTime ∨
        last.lastPushTime = after.lastPushTime ∧
          (s.lastPushTime = after.lastPushTime ∨ last.lastRandChars < List.ofFn random) := by
  refine or_congr_right (and_congr_right fun _ => ?_)
  rcases h with ⟨hNew, hChars⟩ | ⟨hSame, hMore⟩
  · rw [hChars]
    exact (or_iff_right hNew).symm
  · rcases hLast with hZero | rfl
    · exact absurd (hSame.symm.trans hZero) hFits.1.ne'
    · exact iff_of_true hMore (Or.inl hSame)

end FNextPushId

/-- The last key and what the variables held there; after a restart they hold nothing
until the next key. -/
structure AutoIds.Remembers (s : AutoIds) : Prop where
  last : s.keys.getLast? = s.last.map FNextPushId.key
  fits : ∀ last ∈ s.last, last.Fits
  generator : s.generator.lastPushTime = 0 ∨ s.last = some s.generator

section Step

variable {toDouble : ℚ → ℚ} {s after : AutoIds}

theorem nextAutoId_childByAutoId {clock : ℚ} {random : Fin 12 → Fin 64}
    (hEra : InEra toDouble s (.childByAutoId clock random))
    (h : nextAutoId toDouble s (.childByAutoId clock random) = some after) :
    ∃ generator : FNextPushId, generator.Fits ∧
      generator.lastPushTime = toMillis toDouble (s.serverTime toDouble clock) ∧
      s.generator.Advances random generator ∧
      after = { s with generator, keys := s.keys ++ [generator.key], last := some generator } := by
  obtain ⟨⟨newKey, generator⟩, hGet, rfl⟩ := Option.map_eq_some_iff.mp h
  obtain ⟨hKey, hTime, hAdvances⟩ := FNextPushId.get_cases hGet hEra.1
  refine ⟨generator, ?_, hTime, hAdvances, hKey ▸ rfl⟩
  rw [FNextPushId.Fits, hTime]
  exact hEra

theorem AutoIds.Remembers.next {event : AutoIdEvent} (h : s.Remembers)
    (hEra : InEra toDouble s event) (hNext : nextAutoId toDouble s event = some after) :
    after.Remembers := by
  cases event with
  | launch =>
      cases hNext
      exact ⟨h.last, h.fits, Or.inl rfl⟩
  | handleTimestamp clock timestamp =>
      cases hNext
      exact ⟨h.last, h.fits, h.generator⟩
  | childByAutoId clock random =>
      obtain ⟨generator, hFits, -, -, rfl⟩ := nextAutoId_childByAutoId hEra hNext
      refine ⟨List.getLast?_concat, ?_, Or.inr rfl⟩
      rintro _ ⟨⟩
      exact hFits

/-- Every key comes after the one before it. -/
def AutoIds.Increasing (s : AutoIds) : Prop :=
  s.keys.IsChain fun first second => keyOrder first second = .lt

theorem increasing_iff {event : AutoIdEvent} (h : s.Remembers) (hEra : InEra toDouble s event)
    (hNext : nextAutoId toDouble s event = some after) :
    after.Increasing ↔ s.Increasing ∧ KeepsForward toDouble s event := by
  cases event with
  | launch =>
      cases hNext
      exact (and_iff_left trivial).symm
  | handleTimestamp clock timestamp =>
      cases hNext
      exact (and_iff_left trivial).symm
  | childByAutoId clock random =>
      obtain ⟨generator, hFits, hTime, hAdvances, rfl⟩ := nextAutoId_childByAutoId hEra hNext
      have hLast : (∀ key ∈ s.keys.getLast?, keyOrder key generator.key = .lt) ↔
          KeepsForward toDouble s (.childByAutoId clock random) := by
        rw [h.last]
        cases hOld : s.last with
        | none => simp [KeepsForward, hOld]
        | some last =>
            have hGenerator : s.generator.lastPushTime = 0 ∨ last = s.generator :=
              h.generator.imp_right fun hSame => Option.some.inj (hOld.symm.trans hSame)
            simp only [KeepsForward, hOld, Option.map_some, Option.mem_some_iff, forall_eq']
            rw [FNextPushId.keyOrder_key_iff (h.fits last hOld) hFits,
              hAdvances.before_iff hFits hGenerator, hTime]
      rw [AutoIds.Increasing, List.isChain_append, ← hLast]
      simp [AutoIds.Increasing]

end Step

theorem run_increasing_iff {toDouble : ℚ → ℚ} {events : List AutoIdEvent} {final : AutoIds}
    (hRun : run (nextAutoId toDouble) .start events = some final)
    (hEra : Along (nextAutoId toDouble) (InEra toDouble) .start events) :
    final.Increasing ↔ Along (nextAutoId toDouble) (KeepsForward toDouble) .start events := by
  have hStart : AutoIds.start.Remembers := ⟨rfl, nofun, Or.inl rfl⟩
  have hFinal := final_iff_along (nextAutoId toDouble) (fun _ _ _ h hEra hNext => h.next hEra hNext)
    (fun _ _ _ h hEra hNext => increasing_iff h hEra hNext) hRun hEra hStart
  exact hFinal.trans (and_iff_right List.isChain_nil)

/-- The keys of a device come in the order in which they were given out exactly if each
call keeps the server's time forward. A connection may set that time back, whatever the
device's clock does. -/
theorem autoIds_increase_iff {toDouble : ℚ → ℚ} {events : List AutoIdEvent} {final : AutoIds}
    (hRun : run (nextAutoId toDouble) .start events = some final)
    (hEra : Along (nextAutoId toDouble) (InEra toDouble) .start events) :
    final.keys.Pairwise (fun first second => keyOrder first second = .lt) ↔
      Along (nextAutoId toDouble) (KeepsForward toDouble) .start events :=
  List.isChain_iff_pairwise.symm.trans (run_increasing_iff hRun hEra)

namespace Contest

/-- Two keys in one millisecond, with a carry, and one after a connection has shown that the
clock is half a second fast. -/
def threeKeys : List AutoIdEvent :=
  [.childByAutoId 1584000000 fun i => if i = 11 then 63 else 5, .childByAutoId 1584000000 fun _ => 0,
    .handleTimestamp 1584000001 1584000000500, .childByAutoId 1584000001 fun _ => 0]

theorem threeKeys_run : ∃ final ∈ run (nextAutoId id) .start threeKeys,
    final.keys = ["-M2CkT--44444444444z", "-M2CkT--44444444445-", "-M2CkT6o------------"] := by
  decide +kernel

theorem threeKeys_inEra : Along (nextAutoId id) (InEra id) .start threeKeys := by decide +kernel

theorem threeKeys_keepForward : Along (nextAutoId id) (KeepsForward id) .start threeKeys := by
  decide +kernel

/-- A clock that is five minutes fast, a key before the first connection and one a second
after it. -/
def fastClock : List AutoIdEvent :=
  [.launch, .childByAutoId 1584000300 fun _ => 0, .handleTimestamp 1584000300 1584000000000,
    .childByAutoId 1584000301 fun _ => 0]

theorem fastClock_run : ∃ final ∈ run (nextAutoId id) .start fastClock,
    final.keys = ["-M2ClbEV------------", "-M2CkTEc------------"] := by
  decide +kernel

/-- The first run keeps the order and the second does not. Every number in them is a double,
so nothing is rounded. -/
theorem threeKeys_increase_fastClock_not :
    (∃ final, run (nextAutoId id) .start threeKeys = some final ∧
      final.keys.Pairwise fun first second => keyOrder first second = .lt) ∧
    ∃ final, run (nextAutoId id) .start fastClock = some final ∧
      ¬final.keys.Pairwise fun first second => keyOrder first second = .lt := by
  obtain ⟨final, hRun, -⟩ := threeKeys_run
  obtain ⟨back, hBack, -⟩ := fastClock_run
  constructor
  · exact ⟨final, hRun, (autoIds_increase_iff hRun threeKeys_inEra).mpr threeKeys_keepForward⟩
  · exact ⟨back, hBack, fun hOrder =>
      absurd ((autoIds_increase_iff hBack (by decide +kernel)).mp hOrder) (by decide +kernel)⟩

end Contest

end CICJudging
