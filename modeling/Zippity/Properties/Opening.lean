import Zippity.Reader.Call
import Zippity.Reader.Opening
import Zippity.Session

/-! # How often entry data is opened

    An entry is visited in its data, its data descriptor and its central
    directory header.  Between two seeks it is opened for the first of them that
    needs its bytes: its CRC is known and its data is past before its reader is
    dropped.
-/

namespace Zippity

open Framework

section Model
variable {E : EntryData} {H : Crc32Fast}

/-- The entries of a list of indices have different names when the members have. -/
theorem nodup_map_memberName {ms : List Member} (hms : (ms.map Member.name).Nodup) {is : List Nat}
    (his : is.Nodup) (hlt : ∀ i ∈ is, i < ms.length) : (is.map (memberName ms)).Nodup := by
  have hname : ∀ i ∈ is, (ms.map Member.name)[i]? = some (memberName ms i) := by
    intro i hi
    rw [List.getElem?_map, memberName, List.getElem?_eq_getElem (hlt i hi)]
    rfl
  apply List.Nodup.map_on _ his
  intro i hi j hj heq
  have hi' := hname i hi
  rw [heq, ← hname j hj] at hi'
  have hlen : i < (ms.map Member.name).length := by
    rw [List.length_map]
    exact hlt i hi
  exact (List.getElem?_inj hlen hms).mp hi'

section Built
variable {content : E.Data → List UInt8} {b : Builder E} {r r₀ r' : Reader E H} {a : Archive}
  {before after : List (Op E)} {mayFail : Prop}

/-- The names of the members differ. -/
theorem Built.nodup_members (h : Built content b r a) : (a.members.map Member.name).Nodup := by
  rw [h.members, List.map_map]
  exact h.names

/-- **Entries are opened no more often than needed**: in a part of a run without seeks and errors
    each at most once; never one of size 0; and for its CRC only while this is not known. -/
theorem entries_opened_sparingly (hb : b.Reached) (hbuild : b.build = .ok r)
    (hdeliver : b.Delivering content mayFail) (hbefore : Steps r before r₀)
    (hafter : Steps r₀ after r') (hpolls : ∀ op ∈ after, op.isPoll = true)
    (hok : ∀ op ∈ after, op.succeeds = true) :
    (∃ names, r'.pinned.opened = r₀.pinned.opened ++ names ∧ names.Nodup) ∧
    (∀ name source, (name, source) ∈ b.entries.entries → E.size source.data = 0 →
      name ∉ r'.pinned.opened) ∧
    ∀ ctx fuel buf, ∀ turn ∈ turns r'.sizes ctx buf.remaining fuel (r'.frame buf), ∀ answer s',
      readIteration r'.sizes ctx turn.1 buf.remaining turn.2 = .ok (answer, s') →
        Opens turn.2 s' := by
  obtain ⟨a, hbuilt⟩ := hb.built content hbuild
  have hstart := hbuilt.start hdeliver
  obtain ⟨rest, hat⟩ := Steps.readerAt hstart hbefore
  refine ⟨?_, ?_, ?_⟩
  · obtain ⟨is, hnodup, hmem, hopened⟩ := (Steps.logs hat hafter hpolls hok).grown
    refine ⟨is.map (memberName a.members), hopened, ?_⟩
    exact nodup_map_memberName hbuilt.nodup_members hnodup fun i hi => (hmem i hi).1
  · intro name source hsource hsize hname
    have hnew : r.pinned.opened = [] := by
      rw [hbuilt.reader]
      rfl
    -- what is logged are members with data
    obtain ⟨names, hopened, hnames⟩ :=
      (Steps.nonempty hstart hbefore).trans (Steps.nonempty hat hafter)
    rw [hopened, hnew, List.nil_append] at hname
    obtain ⟨m, hm, hmname, hmsize⟩ := hnames name hname
    obtain ⟨entry, hentry, hfrom⟩ := hbuilt.entry hsource
    have hm' : entry.member H content ∈ a.members := by
      rw [hbuilt.members]
      exact List.mem_map_of_mem hentry
    have heq := hbuilt.member_eq hm hm' (hmname.trans hfrom.name.symm)
    apply hmsize
    rw [heq]
    exact hfrom.size.trans hsize
  · intro ctx fuel buf turn _ answer s' hturn
    have hopens := Exec.wp_of_eq_ok
      (readIteration_opens r'.sizes ctx turn.1 buf.remaining turn.2) hturn
    exact hopens

end Built

end Model

/-! ### A session -/

/-- The whole archive from the data of the first file on: the first file is opened to read its
    data, the third one to read its data and with it its CRC. -/
theorem entries_opened_sparingly_session :
    ∃ x : Session steady crc32Ieee,
      session crc32Ieee steadyFiles 20 [.seek 61, .poll false (.new 5), .poll true (.new 200),
        .poll true (.new 100), .poll true (.new 100), .poll true (.new 300)] = some x ∧
      x.last.pinned.opened = [[0x61], [0x63]] ∧
      ∀ name source, (name, source) ∈ x.builder.entries.entries → steady.size source.data = 0 →
        name ∉ x.last.pinned.opened := by
  have hrun : (session crc32Ieee steadyFiles 20 [.seek 61, .poll false (.new 5),
      .poll true (.new 200), .poll true (.new 100), .poll true (.new 100),
      .poll true (.new 300)]).map (fun x => decide (
        x.ops.map Op.target = [some 61, none, none, none, none, none] ∧
        (∀ op ∈ x.ops, op.succeeds = true) ∧ x.last.pinned.opened = [[0x61], [0x63]])) =
          some true := by decide +kernel
  obtain ⟨x, hx, h, hseen⟩ := exists_session hrun
  obtain ⟨htargets, hok, hopened⟩ := of_decide_eq_true hseen
  obtain ⟨polls, hops, hpolls⟩ := eq_seek_cons_of_map_target htargets
  have hsteps : Steps x.reader ([.seek 61] ++ polls) x.last := by
    rw [List.singleton_append, ← hops]
    exact h.steps
  obtain ⟨r₀, hbefore, hafter⟩ := hsteps.split
  have hmain := entries_opened_sparingly h.reached h.build (h.delivering steady_ne_fail) hbefore
    hafter (isPoll_of_map_target (n := 5) hpolls) (fun op hop => hok op (by rw [hops]; simp [hop]))
  exact ⟨x, hx, hopened, hmain.2.1⟩

end Zippity
