import WhatsappTester.Acceptance
import WhatsappTester.Auditing
import WhatsappTester.Auth.Access
import WhatsappTester.Auth.Bootstrap
import WhatsappTester.Auth.Expiry
import WhatsappTester.Auth.Passwords
import WhatsappTester.Auth.Revocation
import WhatsappTester.Auth.Sweeping
import WhatsappTester.Auth.Throttling
import WhatsappTester.Authority
import WhatsappTester.Browser.Chats
import WhatsappTester.Browser.Schedules
import WhatsappTester.Browser.Tabs
import WhatsappTester.Catalogue
import WhatsappTester.Continuation
import WhatsappTester.Dispatch
import WhatsappTester.Isolation
import WhatsappTester.Jobs.Attempts
import WhatsappTester.Jobs.Cancellation
import WhatsappTester.Jobs.Completion
import WhatsappTester.Jobs.Cooldown
import WhatsappTester.Jobs.Counting
import WhatsappTester.Jobs.Halting
import WhatsappTester.Jobs.Interruption
import WhatsappTester.Jobs.Journal
import WhatsappTester.Jobs.Lifecycle
import WhatsappTester.Jobs.Order
import WhatsappTester.Jobs.Recurrence
import WhatsappTester.Jobs.Removal
import WhatsappTester.Jobs.Results
import WhatsappTester.Jobs.Slots
import WhatsappTester.Jobs.Timetable
import WhatsappTester.Jobs.Transactions
import WhatsappTester.Jobs.Tripping
import WhatsappTester.Jobs.Verdict
import WhatsappTester.Limits
import WhatsappTester.Markup
import WhatsappTester.Migration
import WhatsappTester.Outbound
import WhatsappTester.Placeholders
import WhatsappTester.Reimport
import WhatsappTester.Rendering
import WhatsappTester.Replay
import WhatsappTester.Shutdown
import WhatsappTester.Stepping
import WhatsappTester.Transport.Connection
import WhatsappTester.Transport.Mock
