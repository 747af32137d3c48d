import Mathlib.Data.List.Basic
import MessageDocs.Page.Index

/-! # How pages end

The page of a message ends with a fence, the index with an empty line, so no page is both.
-/

set_option autoImplicit false

namespace MessageDocs.Page

theorem tick_suffix_fence (t : Text) : [Fence.tick] <:+ Fence.fence t := by
  rw [Fence.fence, List.replicate_succ']
  exact List.suffix_append _ _

theorem fence_end_suffix_block (language t : Text) :
    [Fence.tick, '\n'] <:+ Fence.block language t := by
  obtain ⟨ticks, fence_eq⟩ := tick_suffix_fence t
  have last : ∀ before : Text,
      [Fence.tick, '\n'] <:+ before ++ (ticks ++ [Fence.tick]) ++ "\n" := by
    intro before
    exact ⟨before ++ ticks, by simp⟩
  rw [fence_eq] at last
  exact last _

theorem fence_end_suffix (context : Context) (m : Message) :
    [Fence.tick, '\n'] <:+ render context m := by
  have block : [Fence.tick, '\n'] <:+ sourceSection m :=
    List.suffix_append_of_suffix (fence_end_suffix_block _ _)
  unfold render
  exact List.suffix_append_of_suffix block

namespace Index

theorem group_nil (heading : Text) : group heading [] = [] := rfl

theorem empty_line_suffix_group {messages : List Message} (h : messages ≠ []) (heading : Text) :
    ['\n', '\n'] <:+ group heading messages := by
  obtain ⟨others, last, rfl⟩ := (List.eq_nil_or_concat' messages).resolve_left h
  rw [group, if_neg h, List.map_append, List.flatten_append, List.map_singleton,
    List.flatten_singleton, entry]
  generalize "- " ++ link last.name last.pageName ++ remark last = line
  exact ⟨"## " ++ heading ++ "\n\n" ++ (others.map entry).flatten ++ line, by simp⟩

theorem empty_line_suffix (context : Context) (messages : List Message) :
    ['\n', '\n'] <:+ render context messages := by
  rw [render]
  by_cases unversioned : (sorted messages).filter (!·.isVersioned) = []
  · rw [unversioned, group_nil, List.append_nil]
    by_cases versioned : (sorted messages).filter (·.isVersioned) = []
    · rw [versioned, group_nil, List.append_nil]
      exact ⟨"# " ++ context.title, rfl⟩
    · exact List.suffix_append_of_suffix (empty_line_suffix_group versioned _)
  · exact List.suffix_append_of_suffix (empty_line_suffix_group unversioned _)

/-- The index is not the page of a message. -/
theorem render_ne_page (context : Context) (messages : List Message) (m : Message) :
    render context messages ≠ Page.render context m := by
  obtain ⟨t, index_eq⟩ := empty_line_suffix context messages
  obtain ⟨u, page_eq⟩ := fence_end_suffix context m
  rw [← index_eq, ← page_eq]
  intro same
  have ends := (List.append_inj' same rfl).2
  revert ends
  decide

end Index

end MessageDocs.Page
