import EpollCoroutine.Lib.Lts
import EpollCoroutine.Lib.OrdSet
import EpollCoroutine.Epoll.Mask
import EpollCoroutine.Epoll.Context
import EpollCoroutine.Epoll.Run
import EpollCoroutine.Epoll.Stale
import EpollCoroutine.Echo.Data
import EpollCoroutine.Echo.Reply
import EpollCoroutine.Server.Session
import EpollCoroutine.Server.Program
import EpollCoroutine.Server.Cases
import EpollCoroutine.Epoll.Owners
import EpollCoroutine.Server.Objects
import EpollCoroutine.Server.Threads
import EpollCoroutine.Server.Wake
import EpollCoroutine.Epoll.Registered
import EpollCoroutine.Server.Sync
import EpollCoroutine.Server.Masks
import EpollCoroutine.Server.Resumes
import EpollCoroutine.Server.Reuse
import EpollCoroutine.Server.Children
import EpollCoroutine.Server.Pipes
import EpollCoroutine.Await.BlockSyscall
import EpollCoroutine.Epoll.Interest
import EpollCoroutine.Epoll.Subscribe
import EpollCoroutine.Task.Machine
import EpollCoroutine.Task.Frames
import EpollCoroutine.Task.Lifetime
import EpollCoroutine.Task.Result
import EpollCoroutine.Server.Family
import EpollCoroutine.Server.Isolation
import EpollCoroutine.Echo.Loops
import EpollCoroutine.Server.Receive
import EpollCoroutine.Lib.Shell
import EpollCoroutine.Lib.Stdio
import EpollCoroutine.Server.Child
import EpollCoroutine.SharedState.Extract
import EpollCoroutine.SharedState.Merge
import EpollCoroutine.Epoll.Holds
import EpollCoroutine.Server.Factory
import EpollCoroutine.Server.Construct
import EpollCoroutine.Lib.Memory
import EpollCoroutine.Server.Buffer
import EpollCoroutine.Epoll.Release
import EpollCoroutine.Lib.Accounts
import EpollCoroutine.Server.Descriptors
import EpollCoroutine.Server.Allocated
import EpollCoroutine.Lib.History
import EpollCoroutine.Echo.Calls
import EpollCoroutine.Server.Transcript
import EpollCoroutine.Server.Progress
import EpollCoroutine.Task.Reclaim
import EpollCoroutine.Server.Rounds
import EpollCoroutine.Server.Processes
import EpollCoroutine.Server.Tasks
import EpollCoroutine.Server.Coroutines
