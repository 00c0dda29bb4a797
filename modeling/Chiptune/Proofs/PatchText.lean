import Chiptune.Proofs.JsonText
import Chiptune.Patch.Reader
import Chiptune.Patch.Writer

/-!
# Patches read back

The text of a patch is read as that patch. Setups, events and patches are objects, so for
each it has to be said to which draft its members lead and that the draft builds the value
again: an option that was left out stays unset, and a command is found by its type among
members whose keys are all different.

`Patch.ofJson_toJson` puts this together for the whole text. Reading gives the patch back
if its sample rate can be played, and refuses it for the sample rate otherwise.
-/

set_option autoImplicit false

namespace Chiptune

open Json

/-! ## Setups -/

theorem EnvelopeSetup.reads_layout (e : EnvelopeSetup) :
    Reads EnvelopeSetup.record.scan e.layout e := by
  obtain ⟨⟨attack, decay, sustain, release⟩, enabled⟩ := e
  apply Record.reads_object
    (s := ⟨some attack, some decay, some sustain, some release, some enabled⟩)
  · refine Record.gathers_cons (fun d v => { d with attack := some v }) (by decide) rfl rfl rfl
      (reads_byte attack) ?_
    refine Record.gathers_cons (fun d v => { d with decay := some v }) (by decide) rfl rfl rfl
      (reads_byte decay) ?_
    refine Record.gathers_cons (fun d v => { d with sustain := some v }) (by decide) rfl rfl rfl
      (reads_byte sustain) ?_
    refine Record.gathers_cons (fun d v => { d with release := some v }) (by decide) rfl rfl rfl
      (reads_byte release) ?_
    refine Record.gathers_cons (fun d v => { d with enabled := some v }) (by decide) rfl rfl rfl
      (reads_boolean enabled) ?_
    exact Gathers.nil _
  · rfl

theorem VibratoSetup.reads_layout (v : VibratoSetup) :
    Reads VibratoSetup.record.scan v.layout v := by
  obtain ⟨⟨rate, depth⟩, enabled⟩ := v
  apply Record.reads_object (s := ⟨some rate, some depth, some enabled⟩)
  · refine Record.gathers_cons (fun d v => { d with rate := some v }) (by decide) rfl rfl rfl
      (reads_byte rate) ?_
    refine Record.gathers_cons (fun d v => { d with depth := some v }) (by decide) rfl rfl rfl
      (reads_byte depth) ?_
    refine Record.gathers_cons (fun d v => { d with enabled := some v }) (by decide) rfl rfl rfl
      (reads_boolean enabled) ?_
    exact Gathers.nil _
  · rfl

theorem ChannelSetup.reads_layout (c : ChannelSetup) :
    Reads ChannelSetup.record.scan c.layout c := by
  obtain ⟨channel, duty, envelope, vibrato⟩ := c
  apply Record.reads_object
    (s := ⟨some channel, duty.map some, envelope.map some, vibrato.map some⟩)
  · refine Record.gathers_cons (fun d v => { d with channel := some v }) (by decide) rfl rfl rfl
      (reads_byte channel) ?_
    -- what is left out leaves the draft as it was before
    apply Gathers.append (t := ⟨some channel, duty.map some, envelope.map some, none⟩)
    · apply Gathers.append (t := ⟨some channel, duty.map some, none, none⟩)
      · refine Gathers.option duty
          (fun o => ChannelDraft.mk (some channel) (o.map some) none none) fun d => ?_
        exact Record.gathers_cons (fun d v => { d with duty := some v }) (by decide) rfl rfl rfl
          (reads_byte d).optional (Gathers.nil _)
      · refine Gathers.option envelope
          (fun o => ChannelDraft.mk (some channel) (duty.map some) (o.map some) none) fun e => ?_
        exact Record.gathers_cons (fun d v => { d with envelope := some v }) (by decide) rfl rfl
          rfl e.reads_layout.optional (Gathers.nil _)
    · refine Gathers.option vibrato
        (fun o => ChannelDraft.mk (some channel) (duty.map some) (envelope.map some)
          (o.map some)) fun v => ?_
      exact Record.gathers_cons (fun d v => { d with vibrato := some v }) (by decide) rfl rfl rfl
        v.reads_layout.optional (Gathers.nil _)
  · have hjoin : ∀ {α : Type} (o : Option α), (o.map some).join = o := by
      intro α o
      cases o <;> rfl
    simp only [ChannelSetup.record, hjoin]
    rfl

/-! ## Events -/

namespace EventValue

theorem reads_text {s : String} (h : Plain s) : Reads EventValue.scan (.word s) (.text s) where
  opens := by
    intro indent
    exact ⟨'"', _, rfl, by decide, by decide, by decide⟩
  scan_eq := by
    intro indent cs rest _ hcs
    simp only [Layout.word, List.cons_append, List.append_assoc, List.nil_append] at hcs
    simp only [EventValue.scan, hcs, if_true, h.textFrom_eq]
    rfl

theorem reads_natural {n : Nat} (hn : n < UInt64.size) :
    Reads EventValue.scan (.natural n) (.natural n) where
  opens := Layout.opens_natural n
  scan_eq := by
    intro indent cs rest hrest hcs
    obtain ⟨c, ds, htext, hdigit, hstarts, hnumber⟩ := exists_number hn hrest hcs
    have hquote : c ≠ '"' := by
      rintro rfl
      exact absurd hdigit (by decide)
    simp only [EventValue.scan, htext, hquote, if_false, hstarts, if_true, hnumber]
    rfl

end EventValue

namespace EventDraft

theorem gathers_time (t : UInt64) :
    Gathers EventDraft.member [("at_ms", .natural t.toNat)] ⟨none, []⟩ ⟨some t, []⟩ := by
  have hlimit : t.toNat ≤ UInt64.size - 1 := Nat.le_of_lt_succ t.toNat_lt
  have hread := (reads_natural hlimit t.toNat_lt).map fun n =>
    (⟨some n.toUInt64, []⟩ : EventDraft)
  have hvalue : t.toNat.toUInt64 = t := UInt64.ofNat_toNat
  rw [hvalue] at hread
  exact Gathers.single (by decide) hread

/-- A member other than the time is kept with its value. -/
theorem gathers_value {key : String} {text : Layout} {v : EventValue} (hkey : Plain key)
    (htime : key ≠ "at_ms") (hv : Reads EventValue.scan text v) (t : Option UInt64)
    (ms : EventMembers) :
    Gathers EventDraft.member [(key, text)] ⟨t, ms⟩ ⟨t, ms ++ [(key, v)]⟩ := by
  apply Gathers.single hkey
  have hmember : (fun cs => EventDraft.member key ⟨t, ms⟩ (':' :: cs)) =
      mapped (fun v => ⟨t, ms ++ [(key, v)]⟩) EventValue.scan := by
    funext cs
    simp only [EventDraft.member, htime, if_false, colon_cons]
    rfl
  rw [hmember]
  exact hv.map fun v => EventDraft.mk t (ms ++ [(key, v)])

/-- Members with 8-bit values, of which none is the time. -/
theorem gathers_bytes (fields : List (String × UInt8))
    (hkeys : ∀ f ∈ fields, Plain f.1 ∧ f.1 ≠ "at_ms") (t : Option UInt64) (ms : EventMembers) :
    Gathers EventDraft.member (fields.map fun f => byteMember f.1 f.2) ⟨t, ms⟩
      ⟨t, ms ++ fields.map fun f => (f.1, .natural f.2.toNat)⟩ := by
  induction fields generalizing ms with
  | nil =>
    rw [List.map_nil, List.map_nil, List.append_nil]
    exact Gathers.nil _
  | cons f fields ih =>
    obtain ⟨hplain, htime⟩ := hkeys f List.mem_cons_self
    have hbyte := Nat.lt_trans f.2.toNat_lt (by decide : 2 ^ 8 < UInt64.size)
    have hf := gathers_value hplain htime (EventValue.reads_natural hbyte) t ms
    have hfields := ih (fun g hg => hkeys g (List.mem_cons_of_mem f hg))
      (ms ++ [(f.1, .natural f.2.toNat)])
    rw [List.append_assoc, List.singleton_append] at hfields
    exact hf.append hfields

end EventDraft

/-- The 8-bit fields of an action by their keys. -/
def Action.fields : Action → List (String × UInt8)
  | .noteOn note velocity => [("note", note), ("velocity", velocity)]
  | .setDuty duty => [("duty", duty)]
  | .configureVibrato params => [("rate", params.rate), ("depth", params.depth)]
  | .configureEnvelope params =>
      [("attack", params.attack), ("decay", params.decay), ("sustain", params.sustain),
        ("release", params.release)]
  | .noteOff | .vibratoOn | .vibratoOff | .envelopeOn | .envelopeOff => []

theorem Action.members_eq_fields (action : Action) :
    action.members.2 = action.fields.map fun f => byteMember f.1 f.2 := by
  cases action <;> rfl

/-- The keys of all fields of actions. -/
def Action.fieldKeys : List String :=
  ["note", "velocity", "duty", "rate", "depth", "attack", "decay", "sustain", "release"]

/-- Types and keys are written without escapes, and no key is that of the time. -/
theorem Action.plain_members (action : Action) :
    Plain action.members.1 ∧ ∀ f ∈ action.fields, Plain f.1 ∧ f.1 ≠ "at_ms" := by
  have htypes : ∀ type ∈ commandTypes, Plain type := by decide
  have hkeys : ∀ key ∈ fieldKeys, Plain key ∧ key ≠ "at_ms" := by decide
  have htype : action.members.1 ∈ commandTypes := by
    cases action <;> simp [members, commandTypes]
  have hsubset : action.fields.map Prod.fst ⊆ fieldKeys := by
    cases action <;> simp [fields, fieldKeys]
  refine ⟨htypes _ htype, ?_⟩
  intro f hf
  exact hkeys f.1 (hsubset (List.mem_map_of_mem hf))

namespace EventMembers

theorem byte?_eq {ms : EventMembers} {key : String} {v : UInt8}
    (h : ms.single? key = some (.natural v.toNat)) : ms.byte? key = some v := by
  have hlimit : v.toNat ≤ 255 := Nat.le_of_lt_succ v.toNat_lt
  have hvalue : v.toNat.toUInt8 = v := UInt8.ofNat_toNat
  simp only [byte?, h, Option.bind_eq_bind, Option.bind_some, if_pos hlimit, hvalue]

/-- The members of a command for a channel as they are read. -/
def addressed (channel : UInt8) (action : Action) : EventMembers :=
  ("type", .text action.members.1) :: ("channel", .natural channel.toNat) ::
    action.fields.map fun f => (f.1, .natural f.2.toNat)

/-- No key occurs twice, so each field of the action is found. -/
theorem byte?_addressed (channel : UInt8) {action : Action} {f : String × UInt8}
    (hf : f ∈ action.fields) : (addressed channel action).byte? f.1 = some f.2 := by
  apply byte?_eq
  cases action with
  | noteOn note velocity =>
    simp only [Action.fields, List.mem_cons, List.not_mem_nil, or_false] at hf
    rcases hf with rfl | rfl <;> rfl
  | setDuty duty =>
    obtain rfl := List.mem_singleton.1 hf
    rfl
  | configureVibrato params =>
    simp only [Action.fields, List.mem_cons, List.not_mem_nil, or_false] at hf
    rcases hf with rfl | rfl <;> rfl
  | configureEnvelope params =>
    simp only [Action.fields, List.mem_cons, List.not_mem_nil, or_false] at hf
    rcases hf with rfl | rfl | rfl | rfl <;> rfl
  | noteOff | vibratoOn | vibratoOff | envelopeOn | envelopeOff => cases hf

theorem action?_addressed (channel : UInt8) (action : Action) :
    (addressed channel action).action? action.members.1 = some action := by
  have hfields : ∀ f ∈ action.fields, (addressed channel action).byte? f.1 = some f.2 :=
    fun f hf => byte?_addressed channel hf
  cases action with
  | noteOn note velocity | setDuty duty | configureVibrato params | configureEnvelope params =>
    simp only [Action.fields, List.forall_mem_cons, List.not_mem_nil, false_imp_iff,
      implies_true, and_true] at hfields
    simp [action?, Action.members, vibratoParams?, envelopeParams?, hfields]
  | noteOff | vibratoOn | vibratoOff | envelopeOn | envelopeOff => rfl

theorem command?_addressed (channel : UInt8) (action : Action) :
    (addressed channel action).command? = some (.address channel action) := by
  have htype : (addressed channel action).single? "type" = some (.text action.members.1) := by
    cases action <;> rfl
  have hchannel : (addressed channel action).byte? "channel" = some channel := by
    apply byte?_eq
    cases action <;> rfl
  have hone : action.members.1 ≠ "all_notes_off" := by
    cases action <;> simp [Action.members]
  simp only [command?, htype, EventValue.commandType?, Option.bind_eq_bind, Option.bind_some,
    if_neg hone, hchannel, action?_addressed]
  rfl

end EventMembers

/-- The members of a command lead to values that describe it. -/
theorem Command.gathers_members (c : Command) (t : Option UInt64) :
    ∃ ms : EventMembers, Gathers EventDraft.member c.members ⟨t, []⟩ ⟨t, ms⟩ ∧
      ms.command? = some c := by
  cases c with
  | allNotesOff =>
    refine ⟨[("type", .text "all_notes_off")], ?_, rfl⟩
    exact EventDraft.gathers_value (by decide) (by decide) (EventValue.reads_text (by decide)) t []
  | address channel action =>
    obtain ⟨htype, hfields⟩ := action.plain_members
    have hchannel : Plain "channel" ∧ "channel" ≠ "at_ms" := by decide
    have hbytes := EventDraft.gathers_bytes (("channel", channel) :: action.fields)
      (List.forall_mem_cons.2 ⟨hchannel, hfields⟩) t [("type", .text action.members.1)]
    rw [List.map_cons, ← Action.members_eq_fields] at hbytes
    refine ⟨EventMembers.addressed channel action, ?_,
      EventMembers.command?_addressed channel action⟩
    exact (EventDraft.gathers_value (by decide) (by decide) (EventValue.reads_text htype) t
      []).append hbytes

theorem TimedCommand.reads_layout (t : TimedCommand) :
    Reads TimedCommand.scan t.layout t where
  opens := Layout.opens_object _
  scan_eq := by
    intro indent cs rest _ hcs
    obtain ⟨ms, hmembers, hcommand⟩ := t.command.gathers_members (some t.atMs)
    have hgathers := (EventDraft.gathers_time t.atMs).append hmembers
    obtain ⟨body, hbody, hdraft⟩ := hgathers.members_object hcs
    simp only [TimedCommand.scan, hbody, hdraft, bind, Except.bind, EventDraft.build, hcommand]
    rfl

/-! ## Patches -/

namespace Patch

theorem reads_layout (p : Patch) : Reads record.scan p.layout p := by
  obtain ⟨sampleRate, lengthMs, channels, events⟩ := p
  apply Record.reads_object (s := ⟨some sampleRate, some lengthMs, some channels, some events⟩)
  · have hrate : sampleRate.toNat.toUInt32 = sampleRate := UInt32.ofNat_toNat
    have hlength : lengthMs.toNat.toUInt64 = lengthMs := UInt64.ofNat_toNat
    refine Record.gathers_cons (fun d n => { d with sampleRate := some n.toUInt32 }) (by decide)
      rfl rfl rfl (reads_natural (Nat.le_of_lt_succ sampleRate.toNat_lt)
        (Nat.lt_trans sampleRate.toNat_lt (by decide))) ?_
    refine Record.gathers_cons (fun d n => { d with lengthMs := some n.toUInt64 }) (by decide)
      rfl rfl rfl (reads_natural (Nat.le_of_lt_succ lengthMs.toNat_lt) lengthMs.toNat_lt) ?_
    refine Record.gathers_cons (fun d v => { d with channels := some v }) (by decide) rfl rfl rfl
      (reads_list channels fun c _ => c.reads_layout) ?_
    refine Record.gathers_cons (fun d v => { d with events := some v }) (by decide) rfl rfl rfl
      (reads_list events fun t _ => t.reads_layout) ?_
    rw [hrate, hlength]
    exact Gathers.nil _
  · rfl

/-- A patch is read back from its text if its sample rate can be played; otherwise it is
refused for the sample rate. -/
theorem ofJson_toJson (p : Patch) :
    ofJson p.toJson =
      if 1 ≤ p.sampleRate.toNat ∧ p.sampleRate.toNat ≤ 192000 then .ok p
      else .error (.sampleRate p.sampleRate) := by
  have hrate : p.HasValidRate ↔ 1 ≤ p.sampleRate.toNat ∧ p.sampleRate.toNat ≤ 192000 := Iff.rfl
  have hread := p.reads_layout.whole_eq 0
  simp only [ofJson, toJson, String.toList_ofList, hread, validated, hrate]

end Patch

end Chiptune
