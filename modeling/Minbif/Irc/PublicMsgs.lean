import Mathlib.Data.List.Induction
import Minbif.Core.Util

/-! Where `Buddy::sendMessage` shows a line: to the User alone, or on the status channel on which the User
has spoken to the buddy. -/
namespace Minbif

/-- The members of a `Buddy` that decide it. -/
structure PublicBuddy where
  nickname : Str
  publicMsgs : Bool := false
  publicMsgsLast : Int := 0

namespace PublicBuddy

/-- The receiver of a PRIVMSG that `Buddy::send` is given. -/
inductive Receiver
  | itself
  | statusChannel
  | other
deriving DecidableEq

/-- A PRIVMSG with its first argument, a line of the buddy, or a new nickname, at a time. -/
inductive Event
  | send (receiver : Receiver) (text : Str) (now : Int)
  | said (now : Int)
  | renamed (nickname : Str)
deriving DecidableEq

def publicMsgsTimeout : Int := 3600

/-- `text.find(getNickname() + ": ") == 0`. -/
def Addresses (nickname text : Str) : Bool := (nickname ++ str ": ").isPrefixOf text

/-- The condition of `Buddy::send`. -/
def takes (nickname : Str) : Event → Bool
  | .send .itself _ _ => true
  | .send .statusChannel text _ => Addresses nickname text
  | _ => false

/-- `Buddy::send`, with the text that it hands on. -/
def send (b : PublicBuddy) (receiver : Receiver) (text : Str) (now : Int) : PublicBuddy × Option Str :=
  if takes b.nickname (.send receiver text now) then
    let chan := receiver = .statusChannel
    ({ b with publicMsgs := chan, publicMsgsLast := now },
      some (if chan then (stringtok text [' ']).2 else text))
  else (b, none)

/-- `if (public_msgs_last + Buddy::PUBLIC_MSGS_TIMEOUT < time(NULL))`. -/
def expire (b : PublicBuddy) (now : Int) : PublicBuddy :=
  if b.publicMsgsLast + publicMsgsTimeout < now then { b with publicMsgs := false } else b

/-- Where a line is shown, and its text. -/
structure Shown where
  onChannel : Bool
  text : Str

/-- `Buddy::sendMessage`, when the account has its status channel or not; `user` is `to->getNickname()`. -/
def sendMessage (b : PublicBuddy) (hasChannel : Bool) (user line : Str) (action : Bool) (now : Int) :
    PublicBuddy × Shown :=
  let b := b.expire now
  if b.publicMsgs && hasChannel then
    (b, ⟨true, if action then str "\x01ACTION " ++ user ++ str ": " ++ line ++ ['\x01']
      else user ++ str ": " ++ line⟩)
  else (b, ⟨false, if action then str "\x01ACTION " ++ line ++ ['\x01'] else line⟩)

def step (b : PublicBuddy) : Event → PublicBuddy
  | .send receiver text now => (b.send receiver text now).1
  | .said now => b.expire now
  | .renamed nickname => { b with nickname }

def run (nickname : Str) (past : List Event) : PublicBuddy := past.foldl step { nickname }

/-- The last text for the buddy came on the status channel, at this time, and no line of the buddy has come
too late for it. -/
structure Spoken (nickname : Str) (past : List Event) (told : Int) : Prop where
  heard : ∃ before text since, past = before ++ .send .statusChannel text told :: since ∧
    Addresses (run nickname before).nickname text = true ∧
    (∀ l e l', since = l ++ e :: l' →
      takes (run nickname (before ++ .send .statusChannel text told :: l)).nickname e = false) ∧
    ∀ now, .said now ∈ since → now ≤ told + publicMsgsTimeout

variable {nickname line : Str} {past : List Event} {told now : Int} {b : PublicBuddy} {e : Event}

theorem run_concat (nickname : Str) (past : List Event) (e : Event) :
    run nickname (past ++ [e]) = (run nickname past).step e := by
  rw [run, List.foldl_append]
  rfl

/-- A text for the buddy sets both members. -/
theorem step_takes (h : takes b.nickname e = true) : ∃ receiver text now, e = .send receiver text now ∧
    b.step e = { b with
      publicMsgs := decide (receiver = .statusChannel)
      publicMsgsLast := now } := by
  cases e with
  | send receiver text now =>
    refine ⟨receiver, text, now, rfl, ?_⟩
    rw [step, send, if_pos h]
  | said now => cases h
  | renamed nickname => cases h

/-- What is not for it changes neither, but for a line that comes too late. -/
theorem step_other (h : takes b.nickname e = false) : (b.step e).publicMsgsLast = b.publicMsgsLast ∧
    ((b.step e).publicMsgs = true ↔ b.publicMsgs = true ∧
      ∀ now, e = .said now → now ≤ b.publicMsgsLast + publicMsgsTimeout) := by
  cases e with
  | send receiver text now =>
    have hidle : b.step (.send receiver text now) = b := by
      rw [step, send, if_neg (by rw [h]; nofun)]
    rw [hidle]
    exact ⟨rfl, fun hp => ⟨hp, nofun⟩, And.left⟩
  | said now =>
    rw [step, expire]
    by_cases hlate : b.publicMsgsLast + publicMsgsTimeout < now
    · rw [if_pos hlate]
      refine ⟨rfl, iff_of_false Bool.false_ne_true fun hp => ?_⟩
      have := hp.2 now rfl
      omega
    · rw [if_neg hlate]
      refine ⟨rfl, fun hp => ⟨hp, ?_⟩, And.left⟩
      intro now' heq
      cases heq
      omega
  | renamed nickname => exact ⟨rfl, fun hp => ⟨hp, nofun⟩, And.left⟩

/-- The last event is the text itself. -/
theorem spoken_told (text : Str) (h : Addresses (run nickname past).nickname text = true) :
    Spoken nickname (past ++ [.send .statusChannel text told]) told :=
  ⟨past, text, [], rfl, h, fun l e l' hl => by simp at hl, fun _ h => nomatch h⟩

/-- The last event is that text, or comes after it. -/
theorem Spoken.last (h : Spoken nickname (past ++ [e]) told) :
    (∃ text, e = .send .statusChannel text told ∧ takes (run nickname past).nickname e = true) ∨
      takes (run nickname past).nickname e = false ∧ Spoken nickname past told ∧ ∀ now, e = .said now → now ≤ told + publicMsgsTimeout := by
  obtain ⟨before, text, since, hpast, haddr, htakes, htimes⟩ := h
  rcases List.eq_nil_or_concat since with rfl | ⟨since, e', rfl⟩
  · obtain ⟨rfl, heq⟩ := List.append_inj' hpast rfl
    obtain rfl := List.singleton_inj.mp heq
    exact .inl ⟨text, rfl, haddr⟩
  · rw [List.concat_eq_append] at hpast htakes htimes
    have hsplit : past ++ [e] = (before ++ .send .statusChannel text told :: since) ++ [e'] := by
      rw [hpast, List.append_assoc, List.cons_append]
    obtain ⟨rfl, heq⟩ := List.append_inj' hsplit rfl
    obtain rfl := List.singleton_inj.mp heq
    refine .inr ⟨htakes since _ [] rfl, ⟨before, text, since, rfl, haddr, fun l x l' hl => ?_,
      fun now hnow => htimes now (List.mem_append_left _ hnow)⟩, ?_⟩
    · exact htakes l x (l' ++ [e]) (by rw [hl, List.append_assoc, List.cons_append])
    · rintro now rfl
      exact htimes now (List.mem_append_right _ List.mem_cons_self)

theorem Spoken.concat (h : Spoken nickname past told) (htakes : takes (run nickname past).nickname e = false)
    (hsoon : ∀ now, e = .said now → now ≤ told + publicMsgsTimeout) :
    Spoken nickname (past ++ [e]) told := by
  obtain ⟨before, text, since, rfl, haddr, hnone, htimes⟩ := h
  refine ⟨before, text, since ++ [e], by rw [List.append_assoc, List.cons_append], haddr,
    fun l x l' hl => ?_, fun now hnow => ?_⟩
  · rcases List.eq_nil_or_concat l' with rfl | ⟨l', y, rfl⟩
    · obtain ⟨rfl, heq⟩ := List.append_inj' hl rfl
      obtain rfl := List.singleton_inj.mp heq
      exact htakes
    · rw [List.concat_eq_append, ← List.cons_append, ← List.append_assoc] at hl
      exact hnone l x l' (List.append_inj' hl rfl).1
  · rcases List.mem_append.mp hnow with hnow | hnow
    · exact htimes now hnow
    · exact hsoon now (List.mem_singleton.mp hnow).symm

/-- What the two members say of the past. -/
theorem run_spoken (nickname : Str) (past : List Event) (told : Int) :
    Spoken nickname past told ↔ (run nickname past).publicMsgs = true ∧
      (run nickname past).publicMsgsLast = told := by
  induction past using List.reverseRecOn with
  | nil =>
    refine iff_of_false ?_ (fun h => nomatch h.1)
    rintro ⟨before, text, since, hpast, -⟩
    simp at hpast
  | append_singleton past e ih =>
    rw [run_concat]
    cases htakes : takes (run nickname past).nickname e with
    | true =>
      obtain ⟨receiver, text, now, rfl, hstep⟩ := step_takes htakes
      rw [hstep]
      constructor
      · intro h
        rcases h.last with ⟨text', heq, -⟩ | ⟨hno, -⟩
        · cases heq
          exact ⟨rfl, rfl⟩
        · rw [htakes] at hno
          cases hno
      · rintro ⟨hchan, rfl⟩
        obtain rfl := of_decide_eq_true hchan
        exact spoken_told text htakes
    | false =>
      obtain ⟨hlast, hpublic⟩ := step_other htakes
      rw [hpublic, hlast]
      constructor
      · intro h
        rcases h.last with ⟨text, -, htrue⟩ | ⟨-, hpast, hsoon⟩
        · rw [htakes] at htrue
          cases htrue
        · obtain ⟨hp, rfl⟩ := ih.mp hpast
          exact ⟨⟨hp, hsoon⟩, rfl⟩
      · rintro ⟨⟨hp, hsoon⟩, rfl⟩
        exact (ih.mpr ⟨hp, rfl⟩).concat htakes hsoon

/-- The User's answer on the channel reaches the buddy without the nickname before it. -/
theorem send_addressed (hblank : ' ' ∉ b.nickname) (text : Str) (now : Int) :
    (b.send .statusChannel (b.nickname ++ str ": " ++ text) now).2 = some text := by
  have htakes : takes b.nickname (.send .statusChannel (b.nickname ++ str ": " ++ text) now) = true :=
    List.isPrefixOf_iff_prefix.mpr (List.prefix_append _ _)
  have hcut : stringtok (b.nickname ++ [':'] ++ ' ' :: text) [' '] = (b.nickname ++ [':'], text) := by
    refine stringtok_cut (by simp) (fun c hc => ?_) rfl
    have hc' : c ≠ ' ' := by
      rcases List.mem_append.mp hc with hc | hc
      · exact fun heq => hblank (heq ▸ hc)
      · exact fun heq => absurd (heq ▸ List.mem_singleton.mp hc) (by decide)
    simpa using hc'
  have hsplit : b.nickname ++ str ": " ++ text = b.nickname ++ [':'] ++ ' ' :: text := by
    simp [str]
  rw [send, if_pos htakes, hsplit, hcut]
  rfl

/-- A line of the buddy is shown on the status channel exactly if the User has spoken to it there last,
not more than an hour before any line since, and the account has the channel. -/
theorem onChannel_iff (nickname : Str) (past : List Event) (hasChannel : Bool) (user line : Str)
    (action : Bool) (now : Int) :
    ((run nickname past).sendMessage hasChannel user line action now).2.onChannel = true ↔
      hasChannel = true ∧ ∃ told, Spoken nickname past told ∧ now ≤ told + publicMsgsTimeout := by
  have hexpire := step_other (b := run nickname past) (e := .said now) rfl
  have hpublic : ((run nickname past).expire now).publicMsgs = true ↔
      ∃ told, Spoken nickname past told ∧ now ≤ told + publicMsgsTimeout := by
    refine hexpire.2.trans ⟨fun ⟨hp, hsoon⟩ => ?_, ?_⟩
    · exact ⟨_, (run_spoken nickname past _).mpr ⟨hp, rfl⟩, hsoon now rfl⟩
    · rintro ⟨told, hspoken, hsoon⟩
      obtain ⟨hp, rfl⟩ := (run_spoken nickname past told).mp hspoken
      refine ⟨hp, fun now' heq => ?_⟩
      cases heq
      exact hsoon
  rw [← hpublic, sendMessage]
  cases ((run nickname past).expire now).publicMsgs with
  | false => simp
  | true => cases hasChannel <;> simp

end PublicBuddy
end Minbif
